import RecordMapper.Proofs.Save.Completing
import RecordMapper.Proofs.Save.ReadBack
import RecordMapper.Proofs.Schema.Relations
import RecordMapper.Proofs.Schema.ByPaths
import RecordMapper.Proofs.Store.Settled

/-!
# Given values — what a plain column takes from saved data

A field over a column that is no relation leads to no other model. So an
object that is given for it has no key there, and the column takes null;
any other value it takes as it is (`SaveParts.lookup_columns_last`). The
row that is written has that value, in the table of the level that
declares the column, whether it is found, put below a parent's row or
created (`Save.Wrote.holds_given`). What is written for relations leaves
it, unless an object of one is saved in the same table.
-/

namespace RecordMapper

open Store

/-- A value as a column takes it that leads to no other rows: of an object there is no key. -/
def Value.unkeyed : Value → Value
  | .map _ => .null
  | v => v

theorem Value.unkeyed_eq_self_iff {v : Value} : v.unkeyed = v ↔ ∀ entries, v ≠ .map entries := by
  cases v <;> simp [unkeyed]

/-! ## Fields over plain columns -/

namespace SchemaField

variable {reg : Registry} {cat : Catalog} {m : Model} {d : FieldDecl} {f g : SchemaField} {path : String} {mode : Mode}

/-- The field writes a column that is no relation. -/
structure WritesPlain (f : SchemaField) (column : String) : Prop where
  column : f.column = some column
  plain : f.modelField.any (·.isRelation) = false

/-- A path to a plain column leads to no other rows. -/
theorem unrelated_ofPath (h : ofPath reg m d path (begun d mode) = .ok f) (hcolumn : f.column.isSome)
    (hplain : f.modelField.any (·.isRelation) = false) : f.relatedModel = none ∧ f.relationWrite = none := by
  obtain ⟨p, _, h⟩ := fromPath_of_ofPath h
  cases h with
  | column => exact ⟨rfl, rfl⟩
  | foreign relation => exact absurd relation (by simpa [onPath] using hplain)
  | rows relation => exact absurd relation (by simpa [onPath] using hplain)
  | @behind _ _ hop _ plain cut =>
      have hdirect : p.isDirectColumn := by
        by_contra hno
        simp [onPath, begun, hno] at hcolumn
      -- A path that is cut has a to-many relation among its steps, and this one is a column alone.
      obtain ⟨_, hsteps, hmany, _⟩ := exists_of_cutAtMany cut
      have hone : p.steps = [p.last] := by
        rw [ResolvedPath.steps, List.isEmpty_iff.mp (Bool.and_eq_true_iff.mp hdirect).1, List.nil_append]
      have hlast : hop.last ∈ [p.last] := by rw [← hone, hsteps]; simp
      rw [List.mem_singleton.mp hlast] at hmany
      rw [Registry.isRelation_of_isMany hmany] at plain
      cases plain

theorem unrelated_of_classify {column : String} (h : classify reg cat m d = .ok f) (hplain : f.WritesPlain column) :
    f.relatedModel = none ∧ f.relationWrite = none := by
  obtain ⟨mode, g, _, hg, hf⟩ := exists_ofSource h
  have hsame : f.relatedModel = g.relatedModel ∧ f.relationWrite = g.relationWrite ∧ f.column = g.column ∧
      f.modelField = g.modelField := by
    have hstamps : g.withStamps.relatedModel = g.relatedModel ∧ g.withStamps.relationWrite = g.relationWrite ∧
        g.withStamps.column = g.column ∧ g.withStamps.modelField = g.modelField := by
      unfold withStamps
      split
      · split
        · exact ⟨rfl, rfl, rfl, rfl⟩
        · exact ⟨rfl, rfl, rfl, rfl⟩
      · exact ⟨rfl, rfl, rfl, rfl⟩
    rcases hf with rfl | rfl
    · exact hstamps
    · exact hstamps
  obtain ⟨hrelated, hwrite, hcolumn, hfield⟩ := hsame
  rw [hrelated, hwrite]
  have hsome : g.column.isSome := by rw [← hcolumn, hplain.column]; rfl
  rcases ofSource_cases hg with ⟨path, _, hpath⟩ | haside
  · exact unrelated_ofPath hpath hsome (hfield ▸ hplain.plain)
  · rw [haside.column] at hsome
    cases hsome

/-- Of a value the field takes what a column takes that leads to no other rows. -/
theorem keyOf_of_unrelated (h : f.relatedModel = none) (v : Value) : f.keyOf v = v.unkeyed := by
  cases v with
  | map entries => rw [keyOf, h]; rfl
  | _ => rfl

end SchemaField

theorem Schema.Declared.unrelated {reg : Registry} {s : Schema} {f : SchemaField} {column : String}
    (hs : s.Declared reg) (hf : f ∈ s.fieldList) (hplain : f.WritesPlain column) :
    f.relatedModel = none ∧ f.relationWrite = none := by
  obtain ⟨e, he, rfl⟩ := List.mem_map.mp hf
  obtain ⟨cat, d, hd⟩ := hs.classified e he
  exact SchemaField.unrelated_of_classify hd hplain

/-! ## Given columns -/

namespace SaveParts

variable {s : Schema} {op : Operation} {f : SchemaField} {e : String × Value} {column : String} {before after : Record}
  {parts : SaveParts} {now : Instant} {pk : Option Value} {v : Value}

/-- The last entry for a column gives it its value. -/
theorem lookup_columns_last (hf : s.field? e.1 = some f) (hkey : f.isPrimaryKey = false) (hallows : f.mode.allows op)
    (hwrite : f.relationWrite = none) (hcolumn : f.column = some column)
    (hlast : ∀ entry ∈ after, ∀ g, s.field? entry.1 = some g → g.column ≠ some column) :
    (split s op (before ++ e :: after)).columns.lookup column = some (f.keyOf e.2) := by
  rw [split, List.foldl_append, List.foldl_cons]
  refine List.foldlRecOn (motive := fun parts : SaveParts => parts.columns.lookup column = some (f.keyOf e.2)) after _
    ?_ fun parts hparts entry hentry => ?_
  · simp only [addEntry, hf, hkey, hallows, hwrite, hcolumn, Bool.not_true, Bool.or_false, Bool.false_eq_true, if_false,
      Option.isSome_none]
    exact Record.lookup_insert_self ..
  · rcases addEntry_cases s op parts entry with
      hadd | ⟨g, hg, _, _, ⟨_, _, _, hadd⟩ | ⟨_, hadd⟩ | ⟨other, _, hother, hadd⟩⟩ <;> rw [hadd]
    · exact hparts
    · exact hparts
    · exact hparts
    · have hne : column ≠ other := by
        rintro rfl
        exact hlast entry hentry g hg hother
      exact (Record.lookup_insert_ne _ hne _).trans hparts

/-- Some columns name a column, and give it one value alone. -/
structure Names (columns : Record) (column : String) (v : Value) : Prop where
  named : ∃ e ∈ columns, e.1 = column
  only : ∀ e ∈ columns, e.1 = column → e.2 = v

theorem Names.of_lookup {columns : Record} (hnodup : (columns.map Prod.fst).Nodup) (h : columns.lookup column = some v) :
    Names columns column v where
  named := ⟨_, mem_of_lookup h, rfl⟩
  only e he hname := by
    subst hname
    exact Option.some.inj (((lookup_eq_some_iff_mem hnodup).mpr he).symm.trans h)

/-- No column of a new row is named twice. -/
theorem nodup_names_createColumns (h : (parts.columns.map Prod.fst).Nodup) :
    ((parts.createColumns s now pk []).map Prod.fst).Nodup := by
  refine List.foldlRecOn (motive := fun out : Record => (out.map Prod.fst).Nodup) s.fieldList _ ?_ fun out hout g _ => ?_
  · cases pk with
    | none => exact h
    | some pk => exact nodup_keys_insertEntry _ _ h
  · split
    · split
      · exact hout
      · exact nodup_keys_insertEntry _ _ hout
    · exact hout

/-- What is left of a new row below a parent's, without the key, names what is given. -/
theorem names_withoutKey (now : Instant) (pk : Option Value) (hnodup : (parts.columns.map Prod.fst).Nodup) (hne : column ≠ "pk" ∧ column ≠ s.model.pkName)
    (h : parts.columns.lookup column = some v) :
    Names ((parts.createColumns s now pk []).withoutKey s.model) column v := by
  have hcreated := lookup_createColumns_of_columns hne.2 h now pk
  have hall := Names.of_lookup (nodup_names_createColumns hnodup) hcreated
  refine ⟨⟨(column, v), ?_, rfl⟩, fun e he hname => ?_⟩
  · refine mem_of_lookup ?_
    rw [Record.withoutKey, Record.lookup_erase_ne _ hne.1, Record.lookup_erase_ne _ hne.2, hcreated]
  · exact hall.only e (List.mem_filter.mp (List.mem_filter.mp he).1).1 hname

/-- What changes in a row names what is given, if the column is not stamped. -/
theorem names_updateColumns (now : Instant) (hnodup : (parts.columns.map Prod.fst).Nodup) (h : parts.columns.lookup column = some v)
    (hstamp : ∀ g ∈ s.fieldList, g.column = some column → g.stampsChanges = false) :
    Names (parts.updateColumns s now []) column v where
  named := List.mem_map.mp (subset_names_updateColumns now parts (mem_keys_of_lookup h))
  only e he hname := by
    rcases mem_updateColumns_stamped he with hgiven | hnone | ⟨g, hg, hcolumn, hstamped, _⟩
    · exact (Names.of_lookup hnodup h).only e hgiven hname
    · cases hnone
    · rw [hstamp g hg (hname ▸ hcolumn)] at hstamped
      cases hstamped

end SaveParts

/-! ## The written row -/

section Row

variable {decls : List ModelDecl} {reg : Registry} {s : Schema} {f : SchemaField} {column : String} {op : Operation}
  {m level : Model} {c : Field} {st st' : Store} {data : Record} {v pk : Value} {times : Instant → Prop}

/-- A column that data writes is not stamped by any field. -/
theorem Schema.Declared.stampsChanges_eq_false (hs : s.Declared reg) (hf : f ∈ s.fieldList) (hkey : f.isPrimaryKey = false)
    (hallows : f.mode.create) (hcolumn : f.column = some column) {g : SchemaField} (hg : g ∈ s.fieldList)
    (hother : g.column = some column) : g.stampsChanges = false := by
  by_contra hstamps
  obtain ⟨c, hmodel, hstamped⟩ := (Option.any_eq_true _ _).mp (Bool.not_eq_false _ ▸ hstamps)
  obtain ⟨hauto, _⟩ := Bool.and_eq_true_iff.mp hstamped
  have hne : column ≠ s.model.pkName := fun h => by
    rw [((hs.written hf).placed.isPrimaryKey_iff hcolumn).mpr h] at hkey
    cases hkey
  obtain ⟨c₁, hc₁, _, _, _, hfound₁⟩ := (hs.written hf).placed.field_of_column hcolumn hne
  obtain ⟨c₂, hc₂, _, _, _, hfound₂⟩ := (hs.written hg).placed.field_of_column hother hne
  obtain rfl : c₁ = c₂ := Option.some.inj (hfound₁.symm.trans hfound₂)
  obtain rfl : c = c₁ := Option.some.inj (hmodel.symm.trans hc₂)
  have hmode := (hs.written hf).stamped c (by rw [hcolumn]; rfl) hc₁ (by rw [hauto]; rfl)
  rw [hmode] at hallows
  cases hallows

/-- A column of the rows of a model beside the key, and the level that declares it. -/
structure KeptIn (reg : Registry) (m : Model) (column : String) (level : Model) (c : Field) : Prop where
  mem : level ∈ reg.lineage m
  own : c ∈ level.own
  name : c.name = column
  concrete : c.isConcrete
  owner : columnOwner? reg m column = some level
  found : reg.field? m column = some c
  ne_key : column ≠ "pk" ∧ column ≠ m.pkName

/-- A field that writes a column beside the key writes it at some level. -/
theorem Schema.Declared.exists_keptIn (hreg : Registry.build decls = .ok reg) (hs : s.Declared reg) (hf : f ∈ s.fieldList)
    (hkey : f.isPrimaryKey = false) (hcolumn : f.column = some column) :
    ∃ level c, f.modelField = some c ∧ KeptIn reg s.model column level c := by
  have hplaced := (hs.written hf).placed
  have hne : column ≠ s.model.pkName := fun h => by
    rw [(hplaced.isPrimaryKey_iff hcolumn).mpr h] at hkey
    cases hkey
  obtain ⟨c, hmodel, hname, hconcrete, halias, hfound⟩ := hplaced.field_of_column hcolumn hne
  obtain ⟨level, hl, hown, howner⟩ := exists_level_of_field? hreg hs.mem_models hfound hconcrete
  exact ⟨level, c, hmodel, hl, hown, hname, hconcrete, (howner (fieldName_ne_pkName_iff.mpr ⟨halias, hne⟩)).2, hfound,
    halias, hne⟩

namespace KeptIn

variable (hreg : Registry.build decls = .ok reg) (hm : m ∈ reg.models) (h : KeptIn reg m column level c)
include hreg hm h

/-- The column is not called like the key at its level either. -/
theorem ne_key_level : c.name ≠ "pk" ∧ c.name ≠ level.pkName := by
  rw [h.name, pkName_of_mem_lineage hreg hm h.mem]
  exact h.ne_key

/-- A row has in the column what it holds at the level. -/
theorem cell_eq {k : Value} {P : Value → Prop} (hholds : Holds reg level k c P st) : P (cell reg st m k column) := by
  have hne := h.name ▸ h.ne_key
  rw [← h.name, cell_of_owner hreg hm h.mem h.own h.concrete hne (h.name ▸ h.owner)]
  exact hholds.cell

/-- A key that stands in the table of the model stands at the level too, and at the top. -/
theorem holds_of_stands (hi : Inherits reg st) {k : Value} (hk : k ∈ st.keys m) :
    Holds reg level k c (fun _ => True) st where
  key := hi m hm level h.mem hk
  root := by
    have hr := Registry.rooted_of_build hreg
    rw [hr.rootOf_of_mem_lineage hm h.mem]
    exact hi m hm _ (reg.rootOf_mem_lineage m) hk
  cell := trivial

end KeptIn

namespace Save

/-- The row that has been written is that of the operation that the key calls for. -/
theorem Wrote.parts_eq {row : WrittenRow} (h : Wrote reg times s data [] st row st')
    (hm : s.model ∈ reg.models) (hcolumn : KeyIsColumn reg s.model) (hi : Inherits reg st)
    (hfloat : ∀ k ∈ st.keys s.model, ∀ x, k ≠ .float x) (hplain : row.pk.isPlain) :
    row.parts = SaveParts.split s (operationAt st s.model row.pk) data := by
  obtain ⟨pks, hselect, _, hnone⟩ := select_plainKey hcolumn hplain hfloat
  cases h with
  | found key time selected some overwritten =>
      obtain rfl : pks = _ := Except.ok.inj (hselect.symm.trans selected)
      have hstands := not_not.mp (mt hnone.mpr some)
      rw [operationAt, if_pos (List.contains_iff_mem.mpr hstands)]
  | extended key time missing given inserted updated =>
      obtain rfl : pks = [] := Except.ok.inj (hselect.symm.trans missing)
      rw [operationAt, if_neg (mt List.contains_iff_mem.mp (hnone.mp rfl))]
  | @created pk _ _ _ time inserted =>
      obtain ⟨_, _, _, _, hnew, _⟩ := insert_eq_ok inserted
      have hmissing : pk ∉ st.keys s.model := fun hk =>
        not_mem_of_contains hnew (hi s.model hm _ (reg.rootOf_mem_lineage s.model) hk)
      rw [operationAt, if_neg (mt List.contains_iff_mem.mp hmissing)]

/-- The row that has been written holds what is given for a column that no field stamps. -/
theorem Wrote.holds_given {row : WrittenRow} (h : Wrote reg times s data [] st row st')
    (hreg : Registry.build decls = .ok reg) (hs : s.Declared reg) (hkept : KeptIn reg s.model column level c)
    (hcolumn : KeyIsColumn reg s.model) (hi : Inherits reg st)
    (hfloat : ∀ k ∈ st.keys s.model, ∀ x, k ≠ .float x) (hplain : row.pk.isPlain)
    (hgiven : row.parts.columns.lookup column = some v)
    (hstamp : row.created = false → ∀ g ∈ s.fieldList, g.column = some column → g.stampsChanges = false) :
    Holds reg level row.pk c (· = v) st' := by
  have hr := Registry.rooted_of_build hreg
  have hm := hs.mem_models
  have ha := hr.mem_models hm hkept.mem
  have howner := hkept.name ▸ hkept.owner
  have hne := hkept.ne_key_level hreg hm
  cases h with
  | @found pk now pks _ key time selected some overwritten =>
      obtain ⟨own, hselect, hown, hnone⟩ := select_plainKey hcolumn hplain hfloat
      obtain rfl : own = pks := Except.ok.inj (hselect.symm.trans selected)
      have hstands := not_not.mp (mt hnone.mpr some)
      obtain ⟨k, hk⟩ := List.exists_mem_of_ne_nil _ some
      obtain rfl := hown k hk
      have hnames := SaveParts.names_updateColumns now (SaveParts.nodup_names_split .update data) hgiven (hstamp rfl)
      rw [← hkept.name] at hnames
      rw [overwritten]
      exact (hkept.holds_of_stands hreg hm hi hstands).overwritten hr hm ha hkept.own hkept.concrete howner hne hk
        hnames.named hnames.only
  | @extended pk now at' columns below _ key time missing given inserted updated =>
      have hnames := SaveParts.names_withoutKey now (some pk) (SaveParts.nodup_names_split .create data) hkept.ne_key
        hgiven
      rw [← given, ← hkept.name] at hnames
      obtain ⟨_, parent, _, hparent, _⟩ := insertChild_eq_ok inserted
      have hkey := givenKey?_localTo hs hplain now data hcolumn hparent
      rw [newColumns, ← given] at hkey
      obtain ⟨habove, hbelow⟩ := contains_of_insertChild hkey hparent inserted
      have habove := (contains_iff_of_isPlain hplain).mp habove
      have hstands : pk ∈ below.keys s.model := hbelow ▸ mem_keys_setRow.mpr (.inl rfl)
      have hinherits : Inherits reg below := by
        refine insertChild_inherits hr hm hi (fun k upper hk hupper => ?_) inserted
        obtain rfl := Option.some.inj (hkey.symm.trans hk)
        obtain rfl := Option.some.inj (hparent.symm.trans hupper)
        exact habove
      rcases updated with ⟨hnone, _⟩ | ⟨n, hupdate⟩
      · obtain ⟨e, he, _⟩ := hnames.named
        rw [hnone] at he
        cases he
      · obtain ⟨pks, hselect, rfl, _⟩ := update_eq_ok hupdate
        have hk : pk ∈ pks := by
          rw [target, select_pkIn hcolumn] at hselect
          cases hselect
          exact List.mem_filter.mpr ⟨hstands, holds_oneOf_of_isPlain (List.mem_singleton.mpr rfl) hplain⟩
        exact (hkept.holds_of_stands hreg hm hinherits hstands).overwritten hr hm ha hkept.own hkept.concrete howner hne hk
          hnames.named hnames.only
  | @created pk now _ _ time inserted =>
      have hlookup := SaveParts.lookup_createColumns_of_columns hkept.ne_key.2 hgiven now (s.keyOf? data)
      have hlevel : column ≠ level.pkName := hkept.name ▸ hne.2
      refine ⟨mem_keys_insert hr hm inserted hkept.mem, ?_, ?_⟩
      · rw [hr.rootOf_of_mem_lineage hm hkept.mem]
        exact mem_keys_insert hr hm inserted (reg.rootOf_mem_lineage _)
      · refine cell_insert hr hm inserted hkept.mem hkept.own hkept.concrete hne ?_ (hkept.name ▸ hlookup)
        exact hkept.name ▸ primaryKey_of_ne_key hreg ha hlevel

end Save

end Row

/-! ## Relations beside the row -/

namespace Save

variable {decls : List ModelDecl} {app : Application} {t : WriteTarget} {s : Schema} {o : SaveOptions} {data : Record}
  {column : String} {level m : Model} {c : Field} {k : Value} {P : Value → Prop} {st st' : Store}

/-- What a save writes and deletes for relations leaves the rows of the saved model alone: no delete reaches a table of
its inheritance, and the objects of relations are saved in other tables. -/
structure LeavesRow (app : Application) (s : Schema) (data : Record) : Prop where
  deletes : SparesLineage app s data
  objects : ∀ e ∈ data, ∀ f n, s.field? e.1 = some f → app.nested? s f = .ok (some n) → ∀ item ∈ e.2.objects, ∀ m,
    Touches app n item m → ∀ level ∈ app.registry.lineage s.model, level.name ∉ (app.registry.lineage m).map Model.name

/-- Data for columns alone leaves the row alone. -/
theorem leavesRow_of_columns (h : ∀ e ∈ data, ∀ f, s.field? e.1 = some f → f.relationWrite = none ∧ f.nested = none) :
    LeavesRow app s data where
  deletes m hm := by
    cases hm with
    | own entry field prunes =>
        rw [SchemaField.prunes?, (h _ entry _ field).1] at prunes
        cases prunes
    | nested entry field schema =>
        have hnested := nested_isSome schema
        rw [(h _ entry _ field).2] at hnested
        cases hnested
  objects e he f n hf hn := by
    have hnested := nested_isSome hn
    rw [(h e he f hf).2] at hnested
    cases hnested

/-- The statements that leave what the row of a key holds in a column. -/
abbrev KeepsCell (reg : Registry) (level : Model) (k : Value) (c : Field) (P : Value → Prop) : Call → Prop :=
  Call.Preserving reg (Holds reg level k c P)

theorem looks_keepsCell {reg : Registry} : Call.Looks (KeepsCell reg level k c P) :=
  ⟨Call.changing_fetch, Call.changing_count⟩

section

variable (hreg : Registry.build decls = .ok app.registry) (hs : s.Declared app.registry)
  (hkept : KeptIn app.registry s.model column level c)
include hreg hs hkept

theorem holds_of_beside (hbeside : Beside level st st')
    (hroot : st.keys (app.registry.rootOf level) ⊆ st'.keys (app.registry.rootOf level))
    (h : Holds app.registry level k c P st) : Holds app.registry level k c P st' where
  key := by rw [Store.keys, hbeside]; exact h.key
  root := hroot h.root
  cell := by
    have hr := Registry.rooted_of_build hreg
    have hrow : st'.row? level k = st.row? level k := row?_congr (congrArg Table.rows hbeside) k
    rw [cell_congr hr (hr.mem_models hs.mem_models hkept.mem) hkept.own hkept.concrete hrow]
    exact h.cell

/-- Statements that write in other tables leave the column. -/
theorem writes_keepsCell (h : level.name ∉ (app.registry.lineage m).map Model.name) :
    Call.Writes (KeepsCell app.registry level k c P) m where
  insert _ := Call.changing_insert fun hinsert =>
    holds_of_beside hreg hs hkept (beside_insert h hinsert) (keys_subset_insert hinsert _)
  insertChild _ := Call.changing_insertChild fun hinsert =>
    holds_of_beside hreg hs hkept (beside_insertChild h hinsert) (keys_subset_insertChild hinsert _)
  update _ _ hqs := Call.changing_update fun hupdate =>
    holds_of_beside hreg hs hkept (beside_update h hqs hupdate) (keys_subset_update hupdate _)

/-- A relation is written in foreign keys, and so it leaves a column that is no relation. -/
theorem writable_keepsCell (hread : app.registry.Readable) (hplain : c.isRelation = false) {f : SchemaField}
    (hf : f ∈ s.fieldList) {w : RelationWrite} (hw : f.relationWrite = some w) :
    w.Writable (KeepsCell app.registry level k c P) := by
  have hr := Registry.rooted_of_build hreg
  have ha := hr.mem_models hs.mem_models hkept.mem
  obtain ⟨upper, _, hkeptRelation⟩ := hs.exists_kept hread hreg hf hw
  cases hkeptRelation with
  | manyToMany hthrough =>
      exact fun _ => Call.changing_insert fun hinsert hholds =>
        hholds.insert hr hthrough ha hkept.own hkept.concrete hinsert
  | @reverse related g hrelated hg hfk _ =>
      refine fun qs v hqs => Call.changing_update fun hupdate hholds => ?_
      subst hqs
      by_cases hsame : qs.model = level
      · obtain ⟨pks, _, rfl, _⟩ := update_eq_ok hupdate
        refine hholds.overwrite hr hrelated ha hkept.own hkept.concrete (fun e he hname => ?_) pks
        -- The foreign key and the column are two fields of one model, so their names differ.
        rw [List.mem_singleton.mp he] at hname
        have hfield : g = c := List.inj_on_of_nodup_map (hread.distinct _ hrelated) hg (hsame ▸ hkept.own) hname
        rw [← hfield, Field.isRelation] at hplain
        rw [Field.isForeignKey] at hfk
        cases htype : g.type <;> simp_all [FieldType.isRelation, FieldType.relatedModel?]
      · refine holds_of_beside hreg hs hkept (beside_update_of_owner hr ha hrelated (Ne.symm hsame) (fun e he => ?_) hupdate)
          (keys_subset_update hupdate _) hholds
        rw [List.mem_singleton.mp he]
        exact columnOwner?_of_own hr hrelated hg (isConcrete_of_isForeignKey hfk)

/-- Deletes that reach no table of the inheritance leave the column. -/
theorem deletes_keepsCell {qs : Queryset}
    (h : ∀ upper ∈ app.registry.lineage s.model, Spares app.registry qs.model upper) :
    KeepsCell app.registry level k c P (.delete qs) := by
  have hroot := (Registry.rooted_of_build hreg).rootOf_of_mem_lineage hs.mem_models hkept.mem
  refine Call.changing_delete fun hdelete => ?_
  refine holds_of_beside hreg hs hkept (beside_delete (h level hkept.mem) hdelete) ?_
  rw [hroot, keys_delete_of_spares (h _ (app.registry.rootOf_mem_lineage s.model)) hdelete]
  exact List.Subset.refl _

/-- Relations that leave the row alone leave what it holds in a column that is no relation. -/
theorem relations_keepsCell (hread : app.registry.Readable) (hplain : c.isRelation = false)
    (halone : LeavesRow app s data) {levels : Nat} {row : WrittenRow} (hrow : FromData s data row.parts) :
    Job.Keeps (World.Preserves t.database app.registry (Holds app.registry level k c P))
      (relations app t (rowWithin app t levels) s o row) := by
  have hlooks : Call.Looks (KeepsCell app.registry level k c P) := looks_keepsCell
  refine (relations_made (fun name v f hentry hfield => ?_) hrow).preserves
  have hwrites (w : RelationWrite) (hw : f.relationWrite = some w) : w.Writable (KeepsCell app.registry level k c P) :=
    writable_keepsCell hreg hs hkept hread hplain (Schema.mem_fieldList_of_field? hfield) hw
  have hdeletes (qs : Queryset) (hqs : Prunes app s data qs.model) : KeepsCell app.registry level k c P (.delete qs) :=
    deletes_keepsCell hreg hs hkept (halone.deletes _ hqs)
  refine ⟨fun w hw pk created => ?_, fun hholds pk created => ?_⟩
  · refine RelationWrite.assign_made hlooks (hwrites w hw) (fun through own other hthrough qs hmodel => ?_) pk _ created
    exact hdeletes qs (.own hentry hfield (by rw [SchemaField.prunes?, hw, hthrough, hmodel]))
  · refine objects_made hlooks hholds hwrites (fun qs hqs => hdeletes qs (.own hentry hfield hqs))
      (fun n hn item hitem o extra => ?_) o pk created
    exact rowWithin_made levels
      { looks := hlooks
        writes := fun m hm =>
          writes_keepsCell hreg hs hkept (halone.objects _ hentry f n hfield hn item hitem m hm level hkept.mem)
        deletes := fun qs hqs => hdeletes qs (.nested hentry hfield hn hitem hqs) } o extra

/-- A save that succeeds leaves in the column what is given for it. -/
theorem row_ends_holding (times : Instant → Prop) {v : Value} (hcolumn : KeyIsColumn app.registry s.model)
    (hi : Inherits app.registry st) (hfloat : ∀ k ∈ st.keys s.model, ∀ x, k ≠ .float x) (hplain : c.isRelation = false)
    (hstamp : ∀ g ∈ s.fieldList, g.column = some column → g.stampsChanges = false)
    (halone : o.withRelations = false ∨ app.registry.Readable ∧ LeavesRow app s data) :
    Job.Ends t.database app.registry times st (row app t s o data) fun pk st' =>
      pk.isPlain → (SaveParts.split s (operationAt st s.model pk) data).columns.lookup column = some v →
        Holds app.registry level pk c (· = v) st' := by
  intro w hreg' htimes hst pk hpk hkey hgiven
  refine Job.Ends.bind (Q := fun pk' st' => pk' = pk → Holds app.registry level pk c (· = v) st')
    ((writeRow_ends.imp fun row st₁ hwrote => ?_)) w hreg' htimes hst pk hpk rfl
  have hwritten : row.pk = pk → FromData s data row.parts ∧ Holds app.registry level pk c (· = v) st₁ := by
    rintro rfl
    have hparts := hwrote.parts_eq hs.mem_models hcolumn hi hfloat hkey
    exact ⟨hparts ▸ fromData_split s _ data,
      hwrote.holds_given hreg hs hkept hcolumn hi hfloat hkey (hparts ▸ hgiven) fun _ => hstamp⟩
  refine .ite (fun hrelations => ?_) fun _ => .pure fun hsame => (hwritten hsame).2
  obtain ⟨hread, halone⟩ := halone.resolve_left (by simp [hrelations])
  refine .bind ?_
  intro w₁ hreg₁ _ hst₁ _ _
  refine .pure fun hsame => ?_
  obtain ⟨hparts, hholds⟩ := hwritten hsame
  exact (relations_keepsCell hreg hs hkept hread hplain halone hparts w₁).store hreg₁ (hst₁ ▸ hholds)

end

end Save

namespace Application

open Save

variable {decls : List ModelDecl} {reg : Registry} {s : Schema} {f : SchemaField} {column : String}
  {e : String × Value} {before after : Record}

/-- What a plain column takes from saved data, and what a save that succeeds leaves in it. The value stands as it is in
the columns to write, unless it is an object: then null stands there. The save leaves what stands there in the row of
its key, whether that row was updated, put below a parent's or created. The key is a plain value in a column, no key is
a float, each table holds the keys of the tables below it, and if relations are saved they leave the row alone. -/
theorem save_stores_given (hreg : Registry.build decls = .ok reg) (hs : s.Declared reg) (hf : s.field? e.1 = some f)
    (hkey : f.isPrimaryKey = false) (hplain : f.WritesPlain column)
    (hlast : ∀ entry ∈ after, ∀ g, s.field? entry.1 = some g → g.column ≠ some column) :
    (∀ op, f.mode.allows op →
      let given := (SaveParts.split s op (before ++ e :: after)).columns.lookup column
      given = some e.2.unkeyed ∧ (given = some e.2 ↔ ∀ entries, e.2 ≠ .map entries)) ∧
    ∀ (w : World) (cat : Catalog) (ctx : Context) (o : SaveOptions) (t : WriteTarget) (pk : Value),
      let app := w.application cat
      let st := (w.database t.database).store
      let saved := w.runJob (app.save s (before ++ e :: after) ctx o)
      let st' := (saved.2.database t.database).store
      w.registry = reg → WriteTarget.of w.connections ctx o = .ok t → KeyIsColumn reg s.model → Inherits reg st →
      (∀ k ∈ st.keys s.model, ∀ x, k ≠ .float x) → saved.1 = .ok pk → pk.isPlain →
      f.mode.allows (operationAt st s.model pk) →
      (o.withRelations = false ∨ reg.Readable ∧ LeavesRow app s (before ++ e :: after)) →
      (∃ level, columnOwner? reg s.model column = some level ∧ pk ∈ st'.keys level) ∧
        cell reg st' s.model pk column = e.2.unkeyed := by
  have hmem := Schema.mem_fieldList_of_field? hf
  obtain ⟨hrelated, hwrite⟩ := hs.unrelated hmem hplain
  have hgiven (op : Operation) (hallows : f.mode.allows op) :
      (SaveParts.split s op (before ++ e :: after)).columns.lookup column = some e.2.unkeyed := by
    rw [SaveParts.lookup_columns_last hf hkey hallows hwrite hplain.column hlast, f.keyOf_of_unrelated hrelated]
  refine ⟨fun op hallows => ⟨hgiven op hallows, ?_⟩, ?_⟩
  · rw [hgiven op hallows, Option.some_inj, Value.unkeyed_eq_self_iff]
  · rintro w cat ctx o t pk app st saved st' rfl ht hcolumn hi hfloat hsave hpk hallows halone
    obtain ⟨level, c, hmodel, hkept⟩ := hs.exists_keptIn hreg hmem hkey hplain.column
    have hrelation : c.isRelation = false := by
      have hplain := hplain.plain
      rwa [hmodel, Option.any_some] at hplain
    have hcreates : f.mode.create := by
      rw [operationAt] at hallows
      split at hallows
      · exact (hs.written hmem).lenient hallows
      · exact hallows
    have hstamp := fun g hg => hs.stampsChanges_eq_false hmem hkey hcreates hplain.column (g := g) hg
    have hends : Job.Ends t.database app.registry (fun _ => True) st (row app t s o (before ++ e :: after)) fun pk st' =>
        pk.isPlain → (SaveParts.split s (operationAt st s.model pk) (before ++ e :: after)).columns.lookup column =
          some e.2.unkeyed → Holds app.registry level pk c (· = e.2.unkeyed) st' :=
      row_ends_holding hreg hs hkept _ hcolumn hi hfloat hrelation hstamp halone
    have hholds := save_ends ht hends w rfl (fun _ _ => trivial) rfl pk hsave hpk (hgiven _ hallows)
    exact ⟨⟨level, hkept.owner, hholds.key⟩, hkept.cell_eq hreg hs.mem_models hholds⟩

end Application

/-! ## Documents -/

namespace Documents

open Registry (built modelOf tableOf)

/-- Papers with a document each; a report is a paper. -/
def decls : List ModelDecl :=
  [{ name := "paper", fields := [.autoKey "id", { Field.of "meta" .json with null := true }] },
    { name := "report", parent := some "paper", fields := [{ Field.of "pages" .integer with null := true }] }]

/-- A paper that is no report yet. -/
def world : World where
  registry := built decls
  databases := [("default", ⟨⟨[("paper", tableOf [(1, [("meta", .json (.bool true))])])]⟩, [], []⟩)]
  main := "default"
  clock := default
  tick := 0

def app : Application := world.application {}

def paperFields : List FieldDecl := [{ name := "id" }, { name := "meta" }]

def paperSchema : Schema :=
  match Schema.build (built decls) {} "Paper" (modelOf (built decls) "paper") paperFields with
  | .ok s => s
  | .error _ => default

def reportFields : List FieldDecl := [{ name := "id" }, { name := "pages" }, { name := "meta" }]

def reportSchema : Schema :=
  match Schema.build (built decls) {} "Report" (modelOf (built decls) "report") reportFields with
  | .ok s => s
  | .error _ => default

/-- An object with one entry. -/
def object : Value := .map [("a", .int 1)]

/-- What the save of some data yields, and what it leaves in the document of a paper. -/
def saving (s : Schema) (data : Record) (pk : Value) : Option Value × Value :=
  let (result, w) := world.runJob (app.save s data {} {})
  (result.toOption, cell (built decls) (w.database "default").store (modelOf (built decls) "paper") pk "meta")

theorem declared_paperSchema : paperSchema.Declared (built decls) := by
  have hbuild : Schema.build (built decls) {} "Paper" (modelOf (built decls) "paper") paperFields = .ok paperSchema := rfl
  exact .built (by decide) hbuild

theorem declared_reportSchema : reportSchema.Declared (built decls) := by
  have hbuild : Schema.build (built decls) {} "Report" (modelOf (built decls) "report") reportFields = .ok reportSchema :=
    rfl
  exact .built (by decide) hbuild

/-- An object that is given for the document of a paper is not stored: null takes the place of the document, and of no
other value. -/
theorem object_not_stored :
    (paperSchema.Declared (built decls) ∧
      (∃ f, paperSchema.field? "meta" = some f ∧ f.isPrimaryKey = false ∧ f.mode.allows .update ∧
        f.WritesPlain "meta")) ∧
    (SaveParts.split paperSchema .update [("id", .int 1), ("meta", object)]).columns = [("meta", .null)] ∧
      saving paperSchema [("id", .int 1), ("meta", object)] (.int 1) = (some (.int 1), .null) ∧
      saving paperSchema [("id", .int 1), ("meta", .list [object])] (.int 1) = (some (.int 1), .list [object]) := by
  refine ⟨⟨declared_paperSchema, _, rfl, rfl, rfl, rfl, rfl⟩, ?_⟩
  decide +kernel

/-- A list that is given for the document of a report is stored with the paper that becomes one. -/
theorem list_stored :
    (WriteTarget.of world.connections {} {} = .ok ⟨"default", true⟩ ∧
      Save.operationAt (world.database "default").store reportSchema.model (.int 1) = .create ∧
      (saving reportSchema [("id", .int 1), ("meta", .list [object])] (.int 1)).1 = some (.int 1)) ∧
    cell (built decls) ((world.runJob (app.save reportSchema [("id", .int 1), ("meta", .list [object])] {} {})).2.database
      "default").store reportSchema.model (.int 1) "meta" = .list [object] := by
  have hop : Save.operationAt (world.database "default").store reportSchema.model (.int 1) = .create := by decide +kernel
  have hsave : (saving reportSchema [("id", .int 1), ("meta", .list [object])] (.int 1)).1 = some (.int 1) := by
    decide +kernel
  refine ⟨⟨rfl, hop, hsave⟩, ?_⟩
  have hreg : Registry.build decls = .ok (built decls) := rfl
  obtain ⟨f, hf, hkey, hmode, hplain⟩ : ∃ f, reportSchema.field? "meta" = some f ∧ f.isPrimaryKey = false ∧
      f.mode.allows .create ∧ f.WritesPlain "meta" := ⟨_, rfl, rfl, rfl, rfl, rfl⟩
  have hinherits : Inherits (built decls) (world.database "default").store := by decide +kernel
  have hnone : (world.database "default").store.keys reportSchema.model = [] := by decide +kernel
  have hread : (built decls).Readable :=
    ⟨by decide, by decide, by decide, by decide, Registry.sidesAreDeclared_of_forward (by decide)⟩
  have halone : Save.LeavesRow app reportSchema [("id", .int 1), ("meta", .list [object])] := by
    have hcolumns : ∀ g ∈ reportSchema.fieldList, g.relationWrite = none ∧ g.nested.isNone := by decide +kernel
    refine Save.leavesRow_of_columns fun e _ g hg => ?_
    exact (hcolumns g (Schema.mem_fieldList_of_field? hg)).imp_right Option.isNone_iff_eq_none.mp
  have hstores := @Application.save_stores_given _ _ _ _ _ ("meta", .list [object]) [("id", .int 1)] [] hreg
    declared_reportSchema hf hkey hplain (List.forall_mem_nil _)
  exact (hstores.2 world {} {} {} ⟨"default", true⟩ (.int 1) rfl rfl ⟨_, rfl, rfl, rfl, rfl⟩ hinherits
    (by rw [hnone]; exact List.forall_mem_nil _) (Outcome.toOption_eq_some.mp hsave) rfl (hop ▸ hmode)
    (.inr ⟨hread, halone⟩)).2

end Documents

end RecordMapper
