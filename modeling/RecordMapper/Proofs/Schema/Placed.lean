import RecordMapper.Proofs.Entries
import RecordMapper.Proofs.Schema.Declared

/-!
# Placed fields — what the fields of a schema write

A field stands aside or at the end of a path of its model (`Placed`).
Only a path that is a column of the model gives it a column to write, and
only a relation of the model itself is written apart. What may be changed
in an old row may be given in a new one, and a stamped column is not
written from data at all (`Written`). Every field of a schema is like
that, as every one comes from a declaration.
-/

namespace RecordMapper

namespace SchemaField

variable {reg : Registry} {cat : Catalog} {m : Model} {d : FieldDecl} {f f' g : SchemaField} {mode : Mode}
  {path : String} {p : ResolvedPath}

/-- Where a field stands: aside, or at the end of a path of its model. -/
inductive Placed (reg : Registry) (m : Model) (f : SchemaField) : Prop
  | aside (modelField : f.modelField = none) (isPrimaryKey : f.isPrimaryKey = false) (column : f.column = none)
    (write : f.relationWrite = none) (kind : ∀ path, f.kind ≠ .column path)
  | path {path : String} {p : ResolvedPath} (resolves : reg.resolvePath m path = .ok p)
    (modelField : f.modelField = some p.last.field)
    (isPrimaryKey : f.isPrimaryKey = (p.before.isEmpty && p.last.field.name == m.pkName))
    (column : f.column = if p.isDirectColumn then some p.last.field.name else none)
    (write : f.relationWrite = none ∨
      p.before = [] ∧ ∃ name, relationWriteOf reg m name p.last.field = .ok f.relationWrite)
    (kind : ∀ path', f.kind = .column path' → path' = path ∧ f.relationWrite = none ∧ p.isSingle ∧
      p.last.field.isConcrete)

theorem placed_ofPath (h : ofPath reg m d path (begun d mode) = .ok f') : f'.Placed reg m ∧ f'.mode = mode := by
  obtain ⟨p, hp, h⟩ := fromPath_of_ofPath h
  refine ⟨?_, by cases h <;> rfl⟩
  cases h with
  | column plain flat single =>
      exact .path hp rfl rfl rfl (.inl rfl) fun path' hpath' =>
        ⟨(FieldKind.column.inj hpath').symm, rfl, single, isConcrete_of_not_isRelation plain⟩
  | foreign relation flat single concrete =>
      exact .path hp rfl rfl rfl (.inl rfl) fun path' hpath' =>
        ⟨(FieldKind.column.inj hpath').symm, rfl, single, concrete⟩
  | rows relation leads back written =>
      exact .path hp rfl rfl rfl (written.imp_right fun ⟨hdirect, hwrite⟩ => ⟨hdirect, d.name, hwrite⟩) nofun
  | behind plain cut leads back => exact .path hp rfl rfl rfl (.inl rfl) nofun

theorem AsideKind.ne_column {kind : FieldKind} (h : AsideKind d .unmapped kind) (path : String) :
    kind ≠ .column path := by
  cases h <;> exact nofun

/-- Whatever the source of a field, it is placed, and keeps its mode unless it loses the writing. -/
theorem placed_ofSource (h : ofSource reg m d (begun d mode) = .ok f') :
    f'.Placed reg m ∧ (f'.mode = mode ∨ f'.mode = mode.withoutWriting) := by
  rcases ofSource_cases h with ⟨path, _, h⟩ | haside
  · exact (placed_ofPath h).imp_right .inl
  · exact ⟨.aside haside.modelField haside.isPrimaryKey haside.column haside.relationWrite haside.kind.ne_column,
      haside.mode⟩

/-- What a field of a schema writes: it is placed, what it changes it may also give, and a stamped column is
not written from data. -/
structure Written (reg : Registry) (m : Model) (f : SchemaField) : Prop where
  placed : f.Placed reg m
  lenient : f.mode.Lenient
  stamped : ∀ column, f.column.isSome → f.modelField = some column → column.autoNow || column.autoNowAdd →
    f.mode = f.mode.withoutWriting

theorem Placed.of_same (h : g.Placed reg m) (hplace : f.modelField = g.modelField)
    (hkey : f.isPrimaryKey = g.isPrimaryKey) (hcolumn : f.column = g.column)
    (hwrite : f.relationWrite = g.relationWrite) (hkind : f.kind = g.kind) : f.Placed reg m := by
  cases h with
  | aside hfield hpk hcol hnone hno =>
      exact .aside (hplace.trans hfield) (hkey.trans hpk) (hcolumn.trans hcol) (hwrite.trans hnone)
        fun path => hkind ▸ hno path
  | path hp hfield hpk hcol hw hread =>
      exact .path hp (hplace.trans hfield) (hkey.trans hpk) (hcolumn.trans hcol) (hwrite ▸ hw)
        fun path' hpath' => hwrite ▸ hread path' (hkind ▸ hpath')

theorem written_withStamps (h : g.Placed reg m) (hmode : g.mode.Lenient) : g.withStamps.Written reg m := by
  unfold withStamps
  split
  · rename_i column hcolumn
    split
    · exact ⟨h.of_same rfl rfl rfl rfl rfl, Mode.lenient_withoutWriting _, fun _ _ _ _ => rfl⟩
    · rename_i hplain
      refine ⟨h, hmode, fun column' hsome hcolumn' hstamped => absurd ?_ hplain⟩
      obtain rfl : column = column' := Option.some.inj (hcolumn.symm.trans hcolumn')
      rw [hsome, hstamped]
      rfl
  · rename_i hnone
    exact ⟨h, hmode, fun column _ hcolumn _ => nomatch hnone.symm.trans hcolumn⟩

theorem Written.withoutWriting (h : f.Written reg m) :
    ({ f with mode := f.mode.withoutWriting } : SchemaField).Written reg m :=
  ⟨h.placed.of_same rfl rfl rfl rfl rfl, Mode.lenient_withoutWriting _, fun _ _ _ _ => rfl⟩

theorem written_of_classify (h : classify reg cat m d = .ok f) : f.Written reg m := by
  obtain ⟨mode, g, hmode, hg, hf⟩ := exists_ofSource h
  obtain ⟨hplaced, hkept⟩ := placed_ofSource hg
  have hlenient : g.mode.Lenient := by
    rcases hkept with hsame | hless
    · exact hsame ▸ hmode
    · exact hless ▸ Mode.lenient_withoutWriting mode
  have hwritten := written_withStamps hplaced hlenient
  rcases hf with rfl | rfl
  · exact hwritten
  · exact hwritten.withoutWriting

/-- A field that writes a column stands for the primary key just where the column is the key's. -/
theorem Placed.isPrimaryKey_iff (h : f.Placed reg m) {column : String} (hcolumn : f.column = some column) :
    f.isPrimaryKey ↔ column = m.pkName := by
  cases h with
  | aside _ _ hnone => exact nomatch hnone.symm.trans hcolumn
  | path hp hfield hpk hcol =>
      rw [hcol] at hcolumn
      split at hcolumn
      · rename_i hdirect
        cases hcolumn
        rw [hpk, (Bool.and_eq_true_iff.mp hdirect).1, Bool.true_and, beq_iff_eq]
      · cases hcolumn

/-- A field that is read as a column stands at the end of a path to one value that is stored, and writes it where
the path has one name. -/
theorem Placed.of_kind (h : f.Placed reg m) (hkind : f.kind = .column path) :
    ∃ p, reg.resolvePath m path = .ok p ∧ p.isSingle ∧ p.last.field.isConcrete ∧ f.relationWrite = none ∧
      (p.before = [] → f.column = some p.last.field.name) := by
  cases h with
  | aside _ _ _ _ hno => exact absurd hkind (hno path)
  | path hp _ _ hcol _ hread =>
      obtain ⟨rfl, hwrite, hsingle, hconcrete⟩ := hread path hkind
      refine ⟨_, hp, hsingle, hconcrete, hwrite, fun hdirect => hcol.trans (if_pos ?_)⟩
      rw [ResolvedPath.isDirectColumn, hdirect, hconcrete]
      rfl

/-- A column that is written and is not the key's is a column of the model under its own name. -/
theorem Placed.field_of_column (h : f.Placed reg m) {column : String} (hcolumn : f.column = some column)
    (hkey : column ≠ m.pkName) :
    ∃ c, f.modelField = some c ∧ c.name = column ∧ c.isConcrete ∧ column ≠ "pk" ∧
      reg.field? m column = some c := by
  cases h with
  | aside _ _ hnone => exact nomatch hnone.symm.trans hcolumn
  | @path path p hp hfield hpk hcol =>
      rw [hcol] at hcolumn
      split at hcolumn
      · rename_i hdirect
        cases hcolumn
        obtain ⟨hbefore, hconcrete⟩ := Bool.and_eq_true_iff.mp hdirect
        obtain ⟨asked, _, hasked⟩ := Registry.name_of_direct hp (List.isEmpty_iff.mp hbefore)
        rw [Registry.field_eq_ok] at hasked
        have hasks := Registry.name_eq_of_field? hasked
        rw [Model.fieldName] at hasks
        split at hasks
        · exact absurd hasks hkey
        · rename_i hpk
          refine ⟨p.last.field, hfield, rfl, hconcrete, ?_, hasks ▸ hasked⟩
          rwa [hasks, ← beq_eq_false_iff_ne, ← Bool.not_eq_true]
      · cases hcolumn

end SchemaField

namespace Schema

variable {reg : Registry} {cat : Catalog} {m : Model} {fields : List (String × SchemaField)} {s : Schema}

/-- Every field comes from a declaration. -/
def Classified (reg : Registry) (m : Model) (fields : List (String × SchemaField)) : Prop :=
  ∀ e ∈ fields, ∃ cat d, SchemaField.classify reg cat m d = .ok e.2

theorem Declared.classified (h : s.Declared reg) : Classified reg s.model s.fields := by
  induction h with
  | @built cat name m decls s _ h =>
      rw [model_of_build h]
      exact forall_of_build (P := fun f => ∃ cat d, SchemaField.classify reg cat m d = .ok f)
        (fun d _ _ hf => ⟨cat, d, hf⟩) (fun _ hf => ⟨cat, _, hf⟩) h
  | narrowed _ op _ _ ih => exact fun e he => ih e (List.mem_filter.mp he).1

theorem Declared.written (h : s.Declared reg) {f : SchemaField} (hf : f ∈ s.fieldList) : f.Written reg s.model := by
  obtain ⟨e, he, rfl⟩ := List.mem_map.mp hf
  obtain ⟨cat, d, hd⟩ := h.classified e he
  exact SchemaField.written_of_classify hd

theorem mem_fieldList_of_field? {name : String} {f : SchemaField} (h : s.field? name = some f) :
    f ∈ s.fieldList :=
  List.mem_map_of_mem (mem_of_lookup h)

end Schema

end RecordMapper
