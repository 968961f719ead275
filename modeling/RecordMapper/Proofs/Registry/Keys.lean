import RecordMapper.Proofs.Registry.Lineage
import RecordMapper.Text.Dotted
import RecordMapper.Registry.Path

/-!
# Keys — every model finds its primary key by name

The models of an inheritance share the primary key that the one at the
top declares, so the name of the key is that of a field of every model.
Unless there is a dot in it, the name is also a path to the key.
-/

/-!
## Sides — relations seen from both ends

Building a registry hangs the other side of every declared relation on
its target. Here both ends are put together: `OtherSide` says that one
field is the other side of another, `settleField_eq_ok` that the build
makes such pairs, and `BuiltFrom` carries them over to the models of the
registry. The two foreign keys of a linking model are read off the
check the build ends with.
-/

namespace RecordMapper

/-- Whether a field is written as the other side of a relation. -/
def Field.isReverse (f : Field) : Bool :=
  match f.type with
  | .reverseForeignKey .. | .reverseOneToOne .. | .reverseManyToMany .. => true
  | _ => false

namespace Registry

/-- `g` of the model `target` is the other side of the relation `f` that the model `owner` declares. -/
def OtherSide (owner : String) (f : Field) (target : String) (g : Field) : Prop :=
  match f.type with
  | .foreignKey other _ => other = target ∧ g.type = .reverseForeignKey owner f.name
  | .oneToOne other _ => other = target ∧ g.type = .reverseOneToOne owner f.name
  | .manyToMany other _ _ _ _ => other = target ∧ g.type = .reverseManyToMany owner f.name
  | _ => False

namespace OtherSide

variable {owner target : String} {f g : Field}

theorem relatedModel? (h : OtherSide owner f target g) :
    f.type.relatedModel? = some target ∧ g.type.relatedModel? = some owner := by
  unfold OtherSide at h
  split at h
  case h_4 => exact h.elim
  all_goals
    rename_i hf
    obtain ⟨rfl, hg⟩ := h
    rw [hf, hg]
    exact ⟨rfl, rfl⟩

theorem reverseName? (h : OtherSide owner f target g) : g.type.reverseName? = some f.name := by
  unfold OtherSide at h
  split at h
  case h_4 => exact h.elim
  all_goals
    rw [h.2]
    rfl

end OtherSide

/-! ## Settling the fields of a declaration -/

/-- A settled field keeps its name and its key. A declared relation comes with its other side, which
stands on a declared model under the name of the other side. -/
theorem settleField_eq_ok {decls : List ModelDecl} {owner : String} {f₀ f : Field}
    {side : Option (String × Field)} (h : settleField decls owner f₀ = .ok (f, side)) :
    f.name = f₀.name ∧ f.primaryKey = f₀.primaryKey ∧
      (neededModels f.type = [] ∧ side = none ∨
        ∃ target g, side = some (target, g) ∧ (declOf? decls target).isSome ∧
          OtherSide owner f target g ∧ f.type.reverseName? = some g.name) := by
  unfold settleField at h
  split at h
  · rename_i hneeded
    cases h
    exact ⟨rfl, rfl, .inl ⟨hneeded, rfl⟩⟩
  · rename_i target others hneeded
    split at h
    · cases h
    · rename_i hfound
      cases h
      have htarget : (declOf? decls target).isSome := by
        have hall := List.find?_eq_none.mp hfound target List.mem_cons_self
        rw [Option.isSome_iff_ne_none]
        exact fun hnone => hall (by simp [hnone])
      refine ⟨rfl, rfl, .inr ⟨target, _, rfl, htarget, ?_, ?_⟩⟩
      · cases ht : f₀.type <;> rw [ht] at hneeded <;> cases hneeded <;>
          simp [OtherSide, FieldType.withRelatedName, reverseType]
      · cases ht : f₀.type <;> rw [ht] at hneeded <;> cases hneeded <;>
          simp [FieldType.withRelatedName, FieldType.reverseName?]

/-- A link that was checked is a foreign key to the model expected. -/
theorem checkLink_eq_ok {reg : Registry} {through link expected : String}
    (h : checkLink reg through link expected = .ok ()) :
    ∃ links, reg.model through = .ok links ∧
      ∃ g name, reg.field links link = .ok g ∧ g.type = .foreignKey expected name := by
  obtain ⟨links, hlinks, h⟩ := Outcome.bind_eq_ok.mp h
  obtain ⟨g, hg, h⟩ := Outcome.bind_eq_ok.mp h
  split at h
  · rename_i _ name hgt
    split at h
    · rename_i he
      exact ⟨links, hlinks, g, name, hg, by rw [hgt, eq_of_beq he]⟩
    · cases h
  · cases h

namespace BuiltFrom

variable {decls : List ModelDecl} {settled : List (Model × List (String × Field))} {reg : Registry}

/-- What was settled for a declaration are its fields, one after another. -/
theorem exists_fields (h : BuiltFrom decls settled reg) {s : Model × List (String × Field)}
    (hs : s ∈ settled) :
    ∃ (d : ModelDecl) (key : String) (fields : List (Field × Option (String × Field))),
      d.fields.mapM (settleField decls d.name) = .ok fields ∧
      s = (⟨d.name, d.parent, key, fields.map Prod.fst, []⟩, fields.filterMap Prod.snd) := by
  obtain ⟨i, hi, rfl⟩ := List.getElem_of_mem hs
  obtain ⟨key, _, hsettle⟩ := h.settles.get (by rw [h.settles.length_eq]; exact hi) hi
  obtain ⟨fields, hfields, he⟩ := settleModel_eq_ok.mp hsettle
  exact ⟨_, key, fields, hfields, he⟩

/-- A declared relation of a model has its other side hung on its target. -/
theorem exists_side (h : BuiltFrom decls settled reg) {m : Model} (hm : m ∈ reg.models) {f : Field}
    (hf : f ∈ m.own) (hforward : neededModels f.type ≠ []) :
    ∃ t ∈ reg.models, ∃ g ∈ t.reverse, OtherSide m.name f t.name g ∧
      f.type.reverseName? = some g.name := by
  rw [h.models] at hm
  obtain ⟨s, hs, rfl⟩ := List.mem_map.mp hm
  obtain ⟨d, key, fields, hfields, rfl⟩ := h.exists_fields hs
  obtain ⟨⟨f', side⟩, hentry, rfl⟩ := List.mem_map.mp hf
  obtain ⟨f₀, _, hf₀⟩ := Outcome.mapM_mem hfields hentry
  obtain ⟨_, _, ⟨hnone, _⟩ | ⟨target, g, rfl, htarget, hopp, hname⟩⟩ := settleField_eq_ok hf₀
  · exact absurd hnone hforward
  · obtain ⟨dt, hdt⟩ := Option.isSome_iff_exists.mp htarget
    obtain ⟨t, ht, _⟩ := h.find?_of_declOf? hdt
    have htm := List.mem_of_find?_eq_some ht
    have htn : t.name = target := by simpa using List.find?_some ht
    have hside : (target, g) ∈ settled.flatMap Prod.snd :=
      List.mem_flatMap.mpr ⟨_, hs, List.mem_filterMap.mpr ⟨_, hentry, rfl⟩⟩
    have hhung : g ∈ t.reverse := by
      have htm' := htm
      rw [h.models] at htm'
      obtain ⟨s', _, rfl⟩ := List.mem_map.mp htm'
      refine List.mem_append_right _ (List.mem_map.mpr ⟨(target, g), ?_, rfl⟩)
      exact List.mem_filter.mpr ⟨hside, by simpa using htn.symm⟩
    exact ⟨t, htm, g, hhung, htn ▸ hopp, hname⟩

/-- A field that the build hung on a model is the other side of a declared relation. -/
theorem exists_owner (h : BuiltFrom decls settled reg) {t : Model} (ht : t ∈ reg.models) {g : Field}
    (hg : g ∈ t.reverse) : ∃ m ∈ reg.models, ∃ f ∈ m.own, OtherSide m.name f t.name g := by
  rw [h.models] at ht
  obtain ⟨s', hs', rfl⟩ := List.mem_map.mp ht
  obtain ⟨d', key', fields', _, rfl⟩ := h.exists_fields hs'
  rw [hung, List.nil_append] at hg
  obtain ⟨⟨target, g'⟩, hside, rfl⟩ := List.mem_map.mp hg
  obtain ⟨hside, htarget⟩ := List.mem_filter.mp hside
  obtain ⟨s, hs, hin⟩ := List.mem_flatMap.mp hside
  obtain ⟨d, key, fields, hfields, rfl⟩ := h.exists_fields hs
  obtain ⟨⟨f, side⟩, hentry, hsome⟩ := List.mem_filterMap.mp hin
  obtain rfl : side = some (target, g') := hsome
  obtain ⟨f₀, _, hf₀⟩ := Outcome.mapM_mem hfields hentry
  obtain ⟨_, _, ⟨_, hnone⟩ | ⟨_, _, he, _, hopp, _⟩⟩ := settleField_eq_ok hf₀
  · cases hnone
  · cases he
    refine ⟨_, h.models ▸ List.mem_map_of_mem hs, f, List.mem_map.mpr ⟨_, hentry, rfl⟩, ?_⟩
    have htn : target = d'.name := by simpa using htarget
    exact htn ▸ hopp

/-- A model without a parent declares one primary key, and the key is named for it. -/
theorem sole_key (h : BuiltFrom decls settled reg) {m : Model} (hm : m ∈ reg.models) (hp : m.parent = none) :
    ∃ f, m.own.filter Field.primaryKey = [f] ∧ f.name = m.pkName := by
  obtain ⟨i, hi, rfl⟩ := List.getElem_of_mem hm
  obtain ⟨hname, hparent, hkey, fields, hfields, hown⟩ :=
    h.forall₂.get (by rw [h.length_eq] at hi; exact hi) hi
  generalize hd : decls.get ⟨i, _⟩ = d at hname hparent hkey hfields
  rw [List.get_eq_getElem] at hname hparent hkey hown
  -- Without a parent the declaration is its own top, and names its key itself.
  have htop : topDecl? decls (decls.length + 1) d = some d := by
    rw [topDecl?, ← hparent, hp]
  rw [keyName, htop] at hkey
  simp only [] at hkey
  split at hkey
  · rename_i key hkeys
    split at hkey
    · cases hkey
    · have hkeyname : key.name = reg.models[i].pkName := Except.ok.inj hkey
      have hsettled : [key].mapM (settleField decls d.name) = .ok (fields.filter fun s => s.1.primaryKey) := by
        rw [← hkeys]
        exact Outcome.mapM_filter hfields fun _ _ _ hs => (settleField_eq_ok hs).2.1
      obtain ⟨s, hs, hsole⟩ : ∃ s, settleField decls d.name key = .ok s ∧
          (fields.filter fun s => s.1.primaryKey) = [s] := by
        have hall := Outcome.mapM_eq_ok.mp hsettled
        generalize (fields.filter fun s => s.1.primaryKey) = kept at hall ⊢
        cases hall with
        | cons hs hnil =>
            cases hnil
            exact ⟨_, hs, rfl⟩
      refine ⟨s.1, ?_, (settleField_eq_ok hs).1.trans hkeyname⟩
      rw [hown, List.filter_map]
      exact congrArg (List.map Prod.fst) hsole
  · cases hkey

/-- A model without a parent declares the one column its primary key is named for. -/
theorem exists_key (h : BuiltFrom decls settled reg) {m : Model} (hm : m ∈ reg.models)
    (hp : m.parent = none) : ∃ f ∈ m.own, f.name = m.pkName ∧ f.primaryKey = true := by
  obtain ⟨f, hsole, hname⟩ := h.sole_key hm hp
  obtain ⟨hf, hkey⟩ := List.mem_filter.mp (hsole ▸ List.mem_singleton_self f)
  exact ⟨f, hf, hname, hkey⟩

/-- The model that links a many-to-many relation has a foreign key to each side of it. -/
theorem exists_links (h : BuiltFrom decls settled reg) {m : Model} (hm : m ∈ reg.models) {f : Field}
    (hf : f ∈ m.own) {target through own other : String} {relatedName : Option String}
    (ht : f.type = .manyToMany target through own other relatedName) :
    ∃ links, reg.model through = .ok links ∧
      (∃ g name, reg.field links own = .ok g ∧ g.type = .foreignKey m.name name) ∧
      ∃ g name, reg.field links other = .ok g ∧ g.type = .foreignKey target name := by
  have hcheck := h.links m hm f hf
  rw [checkThrough, ht] at hcheck
  obtain ⟨_, hown, hother⟩ := Outcome.bind_eq_ok.mp hcheck
  obtain ⟨links, hlinks, hg⟩ := checkLink_eq_ok hown
  obtain ⟨links', hlinks', hg'⟩ := checkLink_eq_ok hother
  rw [hlinks] at hlinks'
  cases hlinks'
  exact ⟨links, hlinks, hg, hg'⟩

end BuiltFrom

end Registry

end RecordMapper

/-! ## Names of keys -/

namespace RecordMapper.Registry

variable {decls : List ModelDecl} {settled : List (Model × List (String × Field))} {reg : Registry}

/-- The top of an inheritance is found in any larger number of steps. -/
theorem topDecl?_succ {steps : Nat} {d top : ModelDecl} (h : topDecl? decls steps d = some top) :
    topDecl? decls (steps + 1) d = some top := by
  induction steps generalizing d with
  | zero => cases h
  | succ steps ih =>
      rw [topDecl?] at h ⊢
      split
      · rename_i hp
        simpa [hp] using h
      · rename_i p hp
        simp only [hp, Option.bind_eq_some_iff] at h ⊢
        obtain ⟨dp, hdp, htop⟩ := h
        exact ⟨dp, hdp, ih htop⟩

/-- The top of an inheritance has no parent. -/
theorem topDecl?_eq_some {steps : Nat} {d top : ModelDecl} (h : topDecl? decls steps d = some top) :
    top.parent = none ∧ (top = d ∨ top ∈ decls) := by
  induction steps generalizing d with
  | zero => cases h
  | succ steps ih =>
      rw [topDecl?] at h
      split at h
      · rename_i hp
        cases h
        exact ⟨hp, .inl rfl⟩
      · obtain ⟨dp, hdp, htop⟩ := Option.bind_eq_some_iff.mp h
        obtain ⟨hparent, rfl | hmem⟩ := ih htop
        · exact ⟨hparent, .inr (List.mem_of_find?_eq_some hdp)⟩
        · exact ⟨hparent, .inr hmem⟩

/-- A primary key is declared by a model without a parent, under the name of its key. -/
theorem BuiltFrom.of_primaryKey (h : BuiltFrom decls settled reg) {m : Model} (hm : m ∈ reg.models) {f : Field}
    (hf : f ∈ m.own) (hp : f.primaryKey) : m.parent = none ∧ f.name = m.pkName := by
  obtain ⟨i, hi, rfl⟩ := List.getElem_of_mem hm
  have hi' : i < decls.length := by rwa [h.length_eq] at hi
  obtain ⟨hname, hparent, hkey, fields, hfields, hown⟩ := h.forall₂.get hi' hi
  simp only [List.get_eq_getElem] at hname hparent hkey hfields hown
  rw [hown] at hf
  obtain ⟨⟨_, side⟩, hentry, rfl⟩ := List.mem_map.mp hf
  obtain ⟨f₀, hf₀, hsettle⟩ := Outcome.mapM_mem hfields hentry
  obtain ⟨hfn, hfp, _⟩ := settleField_eq_ok hsettle
  have hp₀ : f₀.primaryKey := hfp ▸ hp
  rw [keyName] at hkey
  split at hkey
  · cases hkey
  · rename_i top htop
    obtain ⟨htopParent, htopMem⟩ := topDecl?_eq_some htop
    split at hkey
    · rename_i key hkeys
      have hany : decls[i].fields.any Field.primaryKey = true := List.any_eq_true.mpr ⟨f₀, hf₀, hp₀⟩
      split at hkey
      · cases hkey
      · rename_i hsame
        rw [hany, Bool.and_true, Bool.not_eq_true, bne_eq_false_iff_eq] at hsame
        -- Only the declaration itself has its name, so it is the top.
        have htopSelf : top = decls[i] := by
          rcases htopMem with he | hmem
          · exact he
          · exact List.inj_on_of_nodup_map h.names hmem (List.getElem_mem hi') hsame
        have hmem : f₀ ∈ top.fields.filter Field.primaryKey :=
          List.mem_filter.mpr ⟨htopSelf ▸ hf₀, hp₀⟩
        rw [hkeys, List.mem_singleton] at hmem
        exact ⟨by rw [hparent, ← htopSelf, htopParent], hfn.trans (hmem ▸ Except.ok.inj hkey)⟩
    · cases hkey

/-- A model and its parent have one primary key. -/
theorem BuiltFrom.pkName_parent (h : BuiltFrom decls settled reg) {m p : Model} (hm : m ∈ reg.models)
    (hp : reg.parent? m = some p) : m.pkName = p.pkName := by
  obtain ⟨d, _, _, hparent, hkey⟩ := h.exists_decl hm
  obtain ⟨hmp, _⟩ := parent?_eq_some hp
  rw [keyName] at hkey
  split at hkey
  · cases hkey
  · rename_i top htop
    -- The parent's declaration is below the same top.
    rw [topDecl?, ← hparent, hmp] at htop
    simp only [Option.bind_eq_some_iff] at htop
    obtain ⟨dp, hdp, htop⟩ := htop
    obtain ⟨p', hp', hkey'⟩ := h.keyName_of_declOf? hdp
    have hpp : p' = p := by
      rw [parent?, hmp, Option.bind_some, hp'] at hp
      exact Option.some.inj hp
    rw [keyName, topDecl?_succ htop, hpp] at hkey'
    simp only at hkey hkey'
    split at hkey
    · rename_i key hkeys
      rw [hkeys] at hkey'
      simp only at hkey'
      split at hkey
      · cases hkey
      · split at hkey'
        · cases hkey'
        · exact (Except.ok.inj hkey).symm.trans (Except.ok.inj hkey')
    · cases hkey

theorem BuiltFrom.pkName_rootOf (h : BuiltFrom decls settled reg) {m : Model} (hm : m ∈ reg.models) :
    m.pkName = (reg.rootOf m).pkName := by
  have hchain := h.rooted.chain m hm
  rw [rootOf]
  generalize reg.lineage m = l at hchain
  have hlast : ∀ d, m.pkName = (l.getLastD d).pkName := by
    induction hchain with
    | top _ => exact fun d => rfl
    | @under m p above hp hrest ih =>
        intro d
        rw [List.getLastD_cons, h.pkName_parent hm hp]
        exact ih (parent?_eq_some hp).2 m
  exact hlast m

/-- The models of a lineage have one primary key. -/
theorem BuiltFrom.pkName_of_mem_lineage (h : BuiltFrom decls settled reg) {m level : Model} (hm : m ∈ reg.models)
    (hlevel : level ∈ reg.lineage m) : level.pkName = m.pkName := by
  have hr := h.rooted
  rw [h.pkName_rootOf hm, h.pkName_rootOf (hr.mem_models hm hlevel), hr.rootOf_of_mem_lineage hm hlevel]

@[simp] theorem fieldName_pkName (m : Model) : m.fieldName m.pkName = m.pkName := by
  rw [Model.fieldName]
  split <;> rfl

/-- Every model finds its primary key by name. -/
theorem exists_keyField_of_build (h : Registry.build decls = .ok reg) {m : Model} (hm : m ∈ reg.models) :
    (reg.field? m m.pkName).isSome := by
  obtain ⟨settled, hb⟩ := builtFrom_of_build h
  have hr := hb.rooted
  obtain ⟨f, hf, hname, _⟩ := hb.exists_key (hr.rootOf_mem_models hm) (hr.rootOf_parent hm)
  rw [field?, List.findSome?_isSome_iff]
  refine ⟨reg.rootOf m, reg.rootOf_mem_lineage m, ?_⟩
  rw [List.find?_isSome]
  refine ⟨f, List.mem_append_left _ hf, ?_⟩
  rw [fieldName_pkName, hb.pkName_rootOf hm, hname, beq_self_eq_true]

/-- The name of every primary key is the one name of a path, and a field has it. -/
def KeysFound (reg : Registry) : Prop :=
  ∀ m ∈ reg.models, dottedNames m.pkName = [m.pkName] ∧ (reg.field? m m.pkName).isSome

theorem keysFound_of_build (h : Registry.build decls = .ok reg)
    (hdots : ∀ m ∈ reg.models, '.' ∉ m.pkName.toList) : KeysFound reg := fun m hm =>
  ⟨dottedNames_self (hdots m hm), exists_keyField_of_build h hm⟩

/-- A field that is found has the name that was asked for. -/
theorem name_eq_of_field? {m : Model} {name : String} {f : Field} (h : reg.field? m name = some f) :
    f.name = m.fieldName name := by
  rw [field?, List.findSome?_eq_some_iff] at h
  obtain ⟨_, level, _, _, hfind, _⟩ := h
  simpa using List.find?_some hfind

/-- A field that is found by the name of the primary key has that name. -/
theorem name_of_field_pkName {m : Model} {f : Field} (h : reg.field? m m.pkName = some f) :
    f.name = m.pkName :=
  (name_eq_of_field? h).trans (fieldName_pkName m)

theorem field_eq_ok {m : Model} {name : String} {f : Field} :
    reg.field m name = .ok f ↔ reg.field? m name = some f := by
  rw [field]
  cases reg.field? m name <;> simp

/-- A path without relations has one name, which a field has. -/
theorem name_of_direct {m : Model} {path : String} {p : ResolvedPath} (hp : reg.resolvePath m path = .ok p)
    (hdirect : p.before = []) :
    ∃ name, dottedNames path = [name] ∧ reg.field m name = .ok p.last.field := by
  unfold resolvePath at hp
  simp only at hp
  split at hp
  · cases hp
  · match hnames : dottedNames path with
    | [] =>
        rw [hnames] at hp
        cases hp
    | [name] =>
        rw [hnames, resolveNames] at hp
        obtain ⟨f, hf, h⟩ := Outcome.bind_eq_ok.mp hp
        cases h
        exact ⟨name, rfl, hf⟩
    | name :: next :: rest =>
        rw [hnames, resolveNames] at hp
        · obtain ⟨f, _, h⟩ := Outcome.bind_eq_ok.mp hp
          split at h
          · obtain ⟨_, _, h⟩ := Outcome.bind_eq_ok.mp h
            obtain ⟨tail, _, h⟩ := Outcome.bind_eq_ok.mp h
            cases h
            cases hdirect
          · cases h
        · simp

/-- A path of one name crosses no relation. -/
theorem direct_of_one {m : Model} {path : String} {p : ResolvedPath} (hp : reg.resolvePath m path = .ok p)
    (hone : (dottedNames path).length = 1) : p.before = [] := by
  obtain ⟨name, hnames⟩ := List.length_eq_one_iff.mp hone
  unfold resolvePath at hp
  simp only [hnames] at hp
  split at hp
  · cases hp
  · obtain ⟨f, _, h⟩ := Outcome.bind_eq_ok.mp hp
    cases h
    rfl

end RecordMapper.Registry
