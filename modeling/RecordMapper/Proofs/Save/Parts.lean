import RecordMapper.Proofs.Entries
import RecordMapper.Save.Parts

/-!
# Parts — what the entries of saved data become

One entry of saved data gives at most one part: objects for a relation,
keys for one or a column (`SaveParts.addEntry_cases`). So each part goes
back to an entry (`Save.FromData`), no relation is given twice where no
name is, and data without some relations has the same parts but for
these (`SaveParts.split_without`).
-/

namespace RecordMapper

/-- A list of objects lists them all. -/
theorem Value.objects_maps (items : List Record) : (Value.list (items.map .map)).objects = items := by
  rw [objects, Value.items, List.filterMap_map]
  exact List.filterMap_some

/-- A value with an object among those it lists holds objects. -/
theorem Value.holdsObjects_of_mem {v : Value} {item : Record} (h : item ∈ v.objects) : v.holdsObjects := by
  obtain ⟨u, hu, hmap⟩ := List.mem_filterMap.mp h
  obtain ⟨entries, rfl⟩ : ∃ entries, u = .map entries := by
    cases u <;> first
      | exact ⟨_, rfl⟩
      | cases hmap
  cases v with
  | list items => exact List.any_eq_true.mpr ⟨_, hu, rfl⟩
  | map entries => rfl
  | null => cases hu
  | _ => cases List.mem_singleton.mp hu

namespace SaveParts

variable {s : Schema} {op : Operation} {parts : SaveParts} {e : String × Value}

/-- All that one more entry adds: nothing, a relation given by objects, a relation given by keys or a column. -/
theorem addEntry_cases (s : Schema) (op : Operation) (parts : SaveParts) (e : String × Value) :
    parts.addEntry s op e = parts ∨
      ∃ f, s.field? e.1 = some f ∧ f.isPrimaryKey = false ∧ f.mode.allows op ∧
        ((f.relationWrite.isSome ∧ f.nested.isSome ∧ e.2.holdsObjects ∧
            parts.addEntry s op e = { parts with objects := parts.objects ++ [(f, e.2)] }) ∨
          (f.relationWrite.isSome ∧ parts.addEntry s op e = { parts with keys := parts.keys ++ [(f, e.2)] }) ∨
          ∃ column, f.relationWrite.isSome = false ∧ f.column = some column ∧
            parts.addEntry s op e = { parts with columns := parts.columns.insert column (f.keyOf e.2) }) := by
  generalize hafter : parts.addEntry s op e = after
  unfold addEntry at hafter
  split at hafter
  · exact .inl hafter.symm
  · rename_i f hf
    split at hafter
    · exact .inl hafter.symm
    · rename_i htakes
      have hkey : f.isPrimaryKey = false := by
        cases h : f.isPrimaryKey
        · rfl
        · exact absurd (Bool.or_eq_true_iff.mpr (.inl h)) htakes
      have hallows : f.mode.allows op := by
        cases h : f.mode.allows op
        · exact absurd (Bool.or_eq_true_iff.mpr (.inr (by rw [h]; rfl))) htakes
        · rfl
      split at hafter
      · rename_i hwrite
        split at hafter
        · rename_i hlist
          rw [Bool.and_eq_true] at hlist
          exact .inr ⟨f, hf, hkey, hallows, .inl ⟨hwrite, hlist.1, hlist.2, hafter.symm⟩⟩
        · exact .inr ⟨f, hf, hkey, hallows, .inr (.inl ⟨hwrite, hafter.symm⟩)⟩
      · rename_i hwrite
        split at hafter
        · rename_i column hcolumn
          exact .inr ⟨f, hf, hkey, hallows, .inr (.inr ⟨column, Bool.eq_false_iff.mpr hwrite, hcolumn, hafter.symm⟩)⟩
        · exact .inl hafter.symm

end SaveParts

namespace Save

variable {s : Schema} {op : Operation} {data : Record} {f : SchemaField} {v : Value} {parts : SaveParts}

/-! ## Where parts come from -/

/-- The columns and relations among the parts of some data are given by entries of the data, relations for
fields that are not the primary key. Those given by objects are those that list some for a nested schema. -/
structure FromData (s : Schema) (data : Record) (parts : SaveParts) : Prop where
  columns : ∀ e ∈ parts.columns, ∃ entry ∈ data, ∃ f, s.field? entry.1 = some f ∧ f.column = some e.1
  keys : ∀ f v, (f, v) ∈ parts.keys → ∃ name, (name, v) ∈ data ∧ s.field? name = some f
  objects : ∀ f v, (f, v) ∈ parts.objects → f.nested.isSome ∧ v.holdsObjects ∧
    ∃ name, (name, v) ∈ data ∧ s.field? name = some f
  relations : ∀ f v, (f, v) ∈ parts.keys ∨ (f, v) ∈ parts.objects →
    f.isPrimaryKey = false ∧ f.relationWrite.isSome

theorem fromData_addEntry (h : FromData s data parts) {e : String × Value} (he : e ∈ data) :
    FromData s data (parts.addEntry s op e) := by
  rcases SaveParts.addEntry_cases s op parts e with hadd | ⟨g, hg, hkey, _, hcases⟩
  · rwa [hadd]
  · rcases hcases with ⟨hwrite, hnested, hholds, hadd⟩ | ⟨hwrite, hadd⟩ | ⟨column, _, hcolumn, hadd⟩
    · have hnew : ∀ f v, (f, v) ∈ parts.objects ++ [(g, e.2)] → (f, v) ∈ parts.objects ∨ f = g ∧ v = e.2 :=
        fun f v hmem => (List.mem_append.mp hmem).imp_right fun hlast => Prod.mk.inj (List.mem_singleton.mp hlast)
      rw [hadd]
      refine { h with objects := fun f v hmem => ?_, relations := fun f v hmem => ?_ }
      · rcases hnew f v hmem with hold | ⟨rfl, rfl⟩
        · exact h.objects f v hold
        · exact ⟨hnested, hholds, e.1, he, hg⟩
      · rcases hmem with hold | hmem
        · exact h.relations f v (.inl hold)
        · rcases hnew f v hmem with hold | ⟨rfl, rfl⟩
          · exact h.relations f v (.inr hold)
          · exact ⟨hkey, hwrite⟩
    · have hnew : ∀ f v, (f, v) ∈ parts.keys ++ [(g, e.2)] → (f, v) ∈ parts.keys ∨ f = g ∧ v = e.2 :=
        fun f v hmem => (List.mem_append.mp hmem).imp_right fun hlast => Prod.mk.inj (List.mem_singleton.mp hlast)
      rw [hadd]
      refine { h with keys := fun f v hmem => ?_, relations := fun f v hmem => ?_ }
      · rcases hnew f v hmem with hold | ⟨rfl, rfl⟩
        · exact h.keys f v hold
        · exact ⟨e.1, he, hg⟩
      · rcases hmem with hmem | hold
        · rcases hnew f v hmem with hold | ⟨rfl, rfl⟩
          · exact h.relations f v (.inl hold)
          · exact ⟨hkey, hwrite⟩
        · exact h.relations f v (.inr hold)
    · rw [hadd]
      refine { h with columns := fun c hc => ?_ }
      rcases mem_insertEntry hc with rfl | hold
      · exact ⟨e, he, g, hg, hcolumn⟩
      · exact h.columns c hold

theorem fromData_split (s : Schema) (op : Operation) (data : Record) :
    FromData s data (SaveParts.split s op data) := by
  have hnone : FromData s data ⟨[], [], []⟩ :=
    ⟨fun _ h => absurd h List.not_mem_nil, fun _ _ h => absurd h List.not_mem_nil,
      fun _ _ h => absurd h List.not_mem_nil, fun _ _ h => h.elim nofun nofun⟩
  exact List.foldlRecOn data _ hnone fun parts h e he => fromData_addEntry h he

/-- The relations come entry by entry. -/
theorem relations_addEntry (parts : SaveParts) (e : String × Value) :
    (parts.addEntry s op e).keys = parts.keys ++ (SaveParts.split s op [e]).keys ∧
      (parts.addEntry s op e).objects = parts.objects ++ (SaveParts.split s op [e]).objects := by
  simp only [SaveParts.split, List.foldl_cons, List.foldl_nil, SaveParts.addEntry]
  repeat' split
  all_goals simp

theorem relations_split_append (data more : Record) :
    (SaveParts.split s op (data ++ more)).keys =
        (SaveParts.split s op data).keys ++ (SaveParts.split s op more).keys ∧
      (SaveParts.split s op (data ++ more)).objects =
        (SaveParts.split s op data).objects ++ (SaveParts.split s op more).objects := by
  have hall : ∀ parts : SaveParts,
      (more.foldl (SaveParts.addEntry s op) parts).keys = parts.keys ++ (SaveParts.split s op more).keys ∧
        (more.foldl (SaveParts.addEntry s op) parts).objects = parts.objects ++ (SaveParts.split s op more).objects := by
    induction more with
    | nil => exact fun parts => ⟨(List.append_nil _).symm, (List.append_nil _).symm⟩
    | cons e rest ih =>
        intro parts
        obtain ⟨hkeys, hobjects⟩ := ih (parts.addEntry s op e)
        obtain ⟨hkeys', hobjects'⟩ := ih (SaveParts.addEntry s op ⟨[], [], []⟩ e)
        obtain ⟨haddKeys, haddObjects⟩ := @relations_addEntry s op parts e
        rw [List.foldl_cons, hkeys, hobjects, haddKeys, haddObjects, List.append_assoc, List.append_assoc]
        exact ⟨congrArg (parts.keys ++ ·) hkeys'.symm, congrArg (parts.objects ++ ·) hobjects'.symm⟩
  rw [SaveParts.split, List.foldl_append, ← SaveParts.split]
  exact hall _

theorem keys_split_append (data more : Record) :
    (SaveParts.split s op (data ++ more)).keys =
      (SaveParts.split s op data).keys ++ (SaveParts.split s op more).keys :=
  (relations_split_append data more).1

/-- All entries but one, of which none has its name, stand before it or behind it. -/
theorem exists_around {name : String} (hnames : (data.map Prod.fst).Nodup) (hv : (name, v) ∈ data) :
    ∃ before after, data = before ++ (name, v) :: after ∧ before ++ after = data.filter (·.1 != name) := by
  obtain ⟨before, after, rfl⟩ := List.append_of_mem hv
  rw [List.map_append, List.map_cons, List.nodup_middle, List.nodup_cons, ← List.map_append] at hnames
  have hothers : ∀ e ∈ before ++ after, (e.1 != name) = true := fun e he =>
    bne_iff_ne.mpr fun hname => hnames.1 (List.mem_map.mpr ⟨e, he, hname⟩)
  refine ⟨before, after, rfl, ?_⟩
  rw [List.filter_append, List.filter_cons_of_neg (by simp), ← List.filter_append, List.filter_eq_self.mpr hothers]

/-- What is given for a field by an entry of some data that has not a certain name. -/
def GivenBeside (s : Schema) (data : Record) (name : String) (e : SchemaField × Value) : Prop :=
  ∃ other, (other, e.2) ∈ data.filter (·.1 != name) ∧ s.field? other = some e.1

/-- The relations that some data gives are those of one entry and those that stand beside it. -/
theorem exists_split_around (s : Schema) (op : Operation) {name : String} (hnames : (data.map Prod.fst).Nodup)
    (hv : (name, v) ∈ data) :
    ∃ front back : SaveParts,
      (SaveParts.split s op data).keys = front.keys ++ ((SaveParts.split s op [(name, v)]).keys ++ back.keys) ∧
      (SaveParts.split s op data).objects =
        front.objects ++ ((SaveParts.split s op [(name, v)]).objects ++ back.objects) ∧
      (∀ e, e ∈ front.keys ∨ e ∈ back.keys → GivenBeside s data name e) ∧
      ∀ e, e ∈ front.objects ∨ e ∈ back.objects → e.2.holdsObjects ∧ GivenBeside s data name e := by
  obtain ⟨before, after, rfl, hothers⟩ := exists_around hnames hv
  have hall := @relations_split_append s op before ([(name, v)] ++ after)
  have hrest := @relations_split_append s op [(name, v)] after
  rw [hrest.1, hrest.2] at hall
  have hfront := fromData_split s op before
  have hback := fromData_split s op after
  refine ⟨SaveParts.split s op before, SaveParts.split s op after, hall.1, hall.2, fun e he => ?_, fun e he => ?_⟩
  · rw [GivenBeside, ← hothers]
    rcases he with he | he
    · obtain ⟨other, hentry, hother⟩ := hfront.keys e.1 e.2 he
      exact ⟨other, List.mem_append_left _ hentry, hother⟩
    · obtain ⟨other, hentry, hother⟩ := hback.keys e.1 e.2 he
      exact ⟨other, List.mem_append_right _ hentry, hother⟩
  · rw [GivenBeside, ← hothers]
    rcases he with he | he
    · obtain ⟨_, hholds, other, hentry, hother⟩ := hfront.objects e.1 e.2 he
      exact ⟨hholds, other, List.mem_append_left _ hentry, hother⟩
    · obtain ⟨_, hholds, other, hentry, hother⟩ := hback.objects e.1 e.2 he
      exact ⟨hholds, other, List.mem_append_right _ hentry, hother⟩

/-- An entry for a relation with a nested schema gives its objects, or its keys if it holds none. -/
theorem split_relation {name : String} (hfield : s.field? name = some f) (hkey : f.isPrimaryKey = false)
    (hallows : f.mode.allows op) (hwrite : f.relationWrite.isSome) (hnested : f.nested.isSome) :
    (SaveParts.split s op [(name, v)]).keys = (if v.holdsObjects then [] else [(f, v)]) ∧
      (SaveParts.split s op [(name, v)]).objects = (if v.holdsObjects then [(f, v)] else []) := by
  simp only [SaveParts.split, List.foldl_cons, List.foldl_nil, SaveParts.addEntry, hfield, hkey, hallows, hwrite, hnested]
  cases v.holdsObjects <;> simp

/-- One entry gives one relation at most. -/
theorem keys_split_singleton {name : String} (op : Operation) (hfield : s.field? name = some f) :
    (SaveParts.split s op [(name, v)]).keys = [] ∨ (SaveParts.split s op [(name, v)]).keys = [(f, v)] := by
  have hsplit : SaveParts.split s op [(name, v)] = SaveParts.addEntry s op ⟨[], [], []⟩ (name, v) := rfl
  rw [hsplit]
  rcases SaveParts.addEntry_cases s op ⟨[], [], []⟩ (name, v) with hadd | ⟨g, hg, _, _, hcases⟩
  · rw [hadd]
    exact .inl rfl
  · obtain rfl : g = f := Option.some.inj (hg.symm.trans hfield)
    rcases hcases with ⟨_, _, _, hadd⟩ | ⟨_, hadd⟩ | ⟨_, _, _, hadd⟩
    · rw [hadd]
      exact .inl rfl
    · rw [hadd]
      exact .inr rfl
    · rw [hadd]
      exact .inl rfl

/-- One more entry names at most one more relation, as it is named itself. -/
theorem names_addEntry (parts : SaveParts) {e : String × Value}
    (hnamed : ∀ f, s.field? e.1 = some f → f.isPrimaryKey ∨ f.name = e.1) :
    let before := (parts.keys ++ parts.objects).map (·.1.name)
    let after := ((parts.addEntry s op e).keys ++ (parts.addEntry s op e).objects).map (·.1.name)
    after = before ∨ after.Perm (e.1 :: before) := by
  rcases SaveParts.addEntry_cases s op parts e with hadd | ⟨f, hf, hkey, _, hcases⟩
  · rw [hadd]
    exact .inl rfl
  · have hname : f.name = e.1 := (hnamed f hf).resolve_left (by simp [hkey])
    rcases hcases with ⟨_, _, _, hadd⟩ | ⟨_, hadd⟩ | ⟨_, _, _, hadd⟩
    · rw [hadd]
      refine .inr ?_
      simp only [List.map_append, List.map_cons, List.map_nil, hname]
      rw [← List.append_assoc]
      exact List.perm_append_singleton _ _
    · rw [hadd]
      refine .inr ?_
      simp only [List.map_append, List.map_cons, hname, List.append_assoc, List.singleton_append]
      exact List.perm_middle
    · rw [hadd]
      exact .inl rfl

/-- No name stands twice among the relations of a record, in which none does. -/
theorem nodup_names_split (hnamed : ∀ e ∈ data, ∀ f, s.field? e.1 = some f → f.isPrimaryKey ∨ f.name = e.1)
    (hnames : (data.map Prod.fst).Nodup) (op : Operation) :
    (((SaveParts.split s op data).keys ++ (SaveParts.split s op data).objects).map (·.1.name)).Nodup := by
  have hall : ∀ parts : SaveParts, ((parts.keys ++ parts.objects).map (·.1.name)).Nodup →
      (∀ name ∈ (parts.keys ++ parts.objects).map (·.1.name), name ∉ data.map Prod.fst) →
      (((data.foldl (SaveParts.addEntry s op) parts).keys ++
        (data.foldl (SaveParts.addEntry s op) parts).objects).map (·.1.name)).Nodup := by
    induction data with
    | nil => exact fun _ h _ => h
    | cons e rest ih =>
        intro parts hnodup hnew
        rw [List.map_cons, List.nodup_cons] at hnames
        have hrest := ih (fun e he => hnamed e (List.mem_cons_of_mem _ he)) hnames.2
        rw [List.foldl_cons]
        rcases names_addEntry parts (hnamed e List.mem_cons_self) with hsame | hperm
        · refine hrest _ (hsame ▸ hnodup) fun name hname => ?_
          exact fun hmem => hnew name (hsame ▸ hname) (List.mem_cons_of_mem _ hmem)
        · refine hrest _ (hperm.nodup_iff.mpr (List.nodup_cons.mpr ⟨fun hmem => ?_, hnodup⟩)) fun name hname => ?_
          · exact hnew e.1 hmem List.mem_cons_self
          · rcases List.mem_cons.mp (hperm.subset hname) with rfl | hold
            · exact hnames.1
            · exact fun hmem => hnew name hold (List.mem_cons_of_mem _ hmem)
  exact hall ⟨[], [], []⟩ List.nodup_nil fun _ h => absurd h List.not_mem_nil

end Save

/-! ## Data without some relations -/

namespace SaveParts

/-- The parts without the relations of some names. -/
def without (names : List String) (parts : SaveParts) : SaveParts :=
  { parts with
    keys := parts.keys.filter fun e => !names.contains e.1.name
    objects := parts.objects.filter fun e => !names.contains e.1.name }

variable {s : Schema} {op : Operation} {names : List String} {data : Record} {e : String × Value}

theorem addEntry_without (parts : SaveParts) (hnames : e.1 ∉ names)
    (hnamed : ∀ f, s.field? e.1 = some f → f.isPrimaryKey ∨ f.name = e.1) :
    (parts.addEntry s op e).without names = (parts.without names).addEntry s op e := by
  simp only [addEntry]
  split
  · rfl
  · rename_i f hf
    split
    · rfl
    · rename_i hskip
      have hname : f.name ∉ names := by
        rcases hnamed f hf with hkey | hname
        · simp [hkey] at hskip
        · exact hname ▸ hnames
      split
      · split <;> simp [without, hname]
      · split <;> rfl

theorem without_addEntry (parts : SaveParts) (hnames : e.1 ∈ names)
    (hnamed : ∀ f, s.field? e.1 = some f → f.isPrimaryKey ∨ f.name = e.1 ∧ f.relationWrite.isSome) :
    (parts.addEntry s op e).without names = parts.without names := by
  rcases addEntry_cases s op parts e with hadd | ⟨f, hf, hkey, _, hcases⟩
  · rw [hadd]
  · obtain ⟨hname, hwrite⟩ := (hnamed f hf).resolve_left (by simp [hkey])
    rcases hcases with ⟨_, _, _, hadd⟩ | ⟨_, hadd⟩ | ⟨_, hnone, _⟩
    · simp [hadd, without, hname, hnames]
    · simp [hadd, without, hname, hnames]
    · rw [hwrite] at hnone
      cases hnone

/-- Parts of data without some relations are the parts of the data without these. -/
theorem split_without (hnamed : ∀ e ∈ data, ∀ f, s.field? e.1 = some f → f.isPrimaryKey ∨ f.name = e.1)
    (hrelations : ∀ name ∈ names, ∀ f, s.field? name = some f → f.isPrimaryKey ∨ f.relationWrite.isSome) :
    split s op (data.filter fun e => !names.contains e.1) = (split s op data).without names := by
  have hall : ∀ parts : SaveParts, (data.filter fun e => !names.contains e.1).foldl (addEntry s op)
      (parts.without names) = (data.foldl (addEntry s op) parts).without names := by
    induction data with
    | nil => exact fun _ => rfl
    | cons e rest ih =>
        intro parts
        have hhere := hnamed e List.mem_cons_self
        have hrest := ih fun e he => hnamed e (List.mem_cons_of_mem _ he)
        rw [List.foldl_cons]
        by_cases hname : e.1 ∈ names
        · have hpassed : ∀ f, s.field? e.1 = some f →
              f.isPrimaryKey ∨ f.name = e.1 ∧ f.relationWrite.isSome := fun f hf => by
            rcases hhere f hf with hkey | hsame
            · exact .inl hkey
            · exact (hrelations e.1 hname f hf).imp id fun hwrite => ⟨hsame, hwrite⟩
          rw [List.filter_cons_of_neg (by simpa using hname), ← hrest, without_addEntry parts hname hpassed]
        · rw [List.filter_cons_of_pos (by simpa using hname), List.foldl_cons, ← hrest,
            addEntry_without parts hname hhere]
  exact hall ⟨[], [], []⟩

end SaveParts

end RecordMapper
