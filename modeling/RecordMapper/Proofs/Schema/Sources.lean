import RecordMapper.Proofs.Outcomes
import RecordMapper.Schema.Build

/-!
# Sources — what the source of a declaration makes of a field

A field is classified by its source. A path leads to a column of the row
or to other rows, from which a path leads back (`FromPath`). Any other
source changes how the field is read and little else (`Aside`). The mode
of a field comes from its flags, and loses the writing where nothing is
written (`exists_ofSource`).
-/

namespace RecordMapper

namespace Mode

/-- Whoever may change a field in an old row may give it in a new one. -/
def Lenient (mode : Mode) : Prop := mode.update → mode.create

theorem lenient_default : Lenient {} := fun _ => rfl

theorem lenient_withoutWriting (mode : Mode) : mode.withoutWriting.Lenient := nofun

theorem lenient_of_parse {flags : String} {mode : Mode} (h : parse flags = .ok mode) : mode.Lenient := by
  refine Outcome.foldlM_keeps (fun flag _ mode mode' hmode hstep => ?_) (show Lenient ⟨false, false, false⟩ from nofun) h
  split at hstep <;> cases hstep
  · exact hmode
  · exact fun _ => rfl
  · exact fun _ => rfl

end Mode

/-- The path that a declaration names. -/
def FieldDecl.path? (d : FieldDecl) : Option String :=
  match d.source with
  | .implicit => some d.name
  | .path path => some path
  | _ => none

namespace SchemaField

variable {reg : Registry} {cat : Catalog} {m : Model} {d : FieldDecl} {f f' : SchemaField} {path link : String}
  {p : ResolvedPath}

theorem isConcrete_of_not_isRelation {g : Field} (h : g.isRelation = false) : g.isConcrete := by
  rw [Field.isRelation, FieldType.isRelation] at h
  rw [Field.isConcrete]
  cases ht : g.type <;> first | rfl | (rw [ht] at h; cases h)

theorem linkBack_eq_ok {name : String} (h : linkBack m name p = .ok link) : p.reversePath? = some link := by
  rw [linkBack] at h
  split at h
  · cases h
    assumption
  · cases h

/-! ## Paths -/

/-- A field at the end of a path, before it is said how it is read. -/
def onPath (m : Model) (p : ResolvedPath) (f : SchemaField) : SchemaField :=
  { f with
    modelField := some p.last.field
    isPrimaryKey := p.before.isEmpty && p.last.field.name == m.pkName
    column := if p.isDirectColumn then some p.last.field.name else f.column }

/-- What becomes of a field at the end of a path: it reads a column, which may be a relation without a nested schema, or
the rows that a relation at the end leads to, or a column of the rows that the last to-many relation leads to. -/
inductive FromPath (reg : Registry) (m : Model) (d : FieldDecl) (path : String) (p : ResolvedPath) (f : SchemaField) :
    SchemaField → Prop
  | column (plain : p.last.field.isRelation = false) (flat : d.nested = none) (single : p.isSingle) :
      FromPath reg m d path p f { f with kind := .column path }
  | foreign {target : Model} (relation : p.last.field.isRelation) (flat : d.nested = none) (single : p.isSingle)
      (concrete : p.last.field.isConcrete) :
      FromPath reg m d path p f
        { f with relatedModel := some target, relatedSingle := d.single.getD p.isSingle, kind := .column path }
  | rows {target : Model} {link : String} {write : Option RelationWrite} (relation : p.last.field.isRelation)
      (leads : reg.targetModel p = .ok (some target)) (back : p.reversePath? = some link)
      (written : write = f.relationWrite ∨ p.before = [] ∧ relationWriteOf reg m d.name p.last.field = .ok write) :
      FromPath reg m d path p f
        { f with
          relatedModel := some target
          relatedSingle := d.single.getD p.isSingle
          kind := .isolated (.relation target link target.pkName)
          relationWrite := write }
  | behind {target : Model} {link : String} {hop : ResolvedPath} {names : List String}
      (plain : p.last.field.isRelation = false) (cut : cutAtMany p = some (hop, names))
      (leads : reg.targetModel hop = .ok (some target)) (back : hop.reversePath? = some link) :
      FromPath reg m d path p f
        { f with
          relatedModel := some target
          relatedSingle := false
          kind := .isolated (.relation target link (".".intercalate names)) }

theorem fromPath_of_ofManyPath (hplain : p.last.field.isRelation = false) (h : ofManyPath reg m d path p f = .ok f') :
    FromPath reg m d path p f f' := by
  unfold ofManyPath at h
  split at h
  · cases h
  · rename_i hop names hcut
    obtain ⟨_ | target, htarget, h⟩ := Outcome.bind_eq_ok.mp h
    · cases h
    · obtain ⟨link, hlink, h⟩ := Outcome.bind_eq_ok.mp h
      cases h
      exact .behind hplain hcut htarget (linkBack_eq_ok hlink)

theorem fromPath_of_ofRelationPath (hrelation : p.last.field.isRelation)
    (h : ofRelationPath reg m d path p f = .ok f') : FromPath reg m d path p f f' := by
  unfold ofRelationPath at h
  obtain ⟨_ | target, htarget, h⟩ := Outcome.bind_eq_ok.mp h
  · cases h
  · simp only at h
    split at h
    · rename_i hdirect
      simp only [Bool.and_eq_true, Option.isNone_iff_eq_none] at hdirect
      cases h
      exact .foreign hrelation hdirect.1.1 hdirect.1.2 hdirect.2
    · obtain ⟨link, hlink, h⟩ := Outcome.bind_eq_ok.mp h
      split at h
      · rename_i hdirect
        rw [Bool.and_eq_true, List.isEmpty_iff] at hdirect
        obtain ⟨write, hwrite, h⟩ := Outcome.bind_eq_ok.mp h
        cases h
        exact .rows hrelation htarget (linkBack_eq_ok hlink) (.inr ⟨hdirect.1, hwrite⟩)
      · cases h
        exact .rows hrelation htarget (linkBack_eq_ok hlink) (.inl rfl)

theorem fromPath_of_ofPath (h : ofPath reg m d path f = .ok f') :
    ∃ p, reg.resolvePath m path = .ok p ∧ FromPath reg m d path p (f.onPath m p) f' := by
  unfold ofPath at h
  obtain ⟨p, hp, h⟩ := Outcome.bind_eq_ok.mp h
  refine ⟨p, hp, ?_⟩
  simp only at h
  split at h
  · cases h
  · generalize hon : (if p.isDirectColumn = true then _ else _ : SchemaField) = g at h
    obtain rfl : f.onPath m p = g := by
      rw [← hon, onPath]
      split <;> rfl
    split at h
    · rename_i hrelation
      exact fromPath_of_ofRelationPath hrelation h
    · rename_i hrelation
      have hplain := Bool.eq_false_iff.mpr hrelation
      split at h
      · cases h
      · rename_i hnested
        split at h
        · rename_i hsingle
          cases h
          exact .column hplain (by simpa using hnested) hsingle
        · exact fromPath_of_ofManyPath hplain h

/-! ## Other sources -/

/-- The ways a field is read whose source is no path. Rows behind it there are only if it is isolated. -/
inductive AsideKind (d : FieldDecl) (before : FieldKind) : FieldKind → Prop
  | expression (e : Expression) (plain : d.nested = none) : AsideKind d before (.expression e)
  | queryset (qs : Queryset) (link value : String) : AsideKind d before (.isolated (.queryset qs link value))
  | function (g : FieldFunction) : AsideKind d before (.isolated (.function g))
  | unmapped (plain : d.nested = none) : AsideKind d before before

/-- What becomes of a field whose source is no path: how it is read may change, and it may lose the writing. -/
structure Aside (d : FieldDecl) (f f' : SchemaField) : Prop where
  name : f'.name = f.name
  isPrimaryKey : f'.isPrimaryKey = f.isPrimaryKey
  nested : f'.nested = f.nested
  modelField : f'.modelField = f.modelField
  column : f'.column = f.column
  relationWrite : f'.relationWrite = f.relationWrite
  mode : f'.mode = f.mode ∨ f'.mode = f.mode.withoutWriting
  kind : AsideKind d f.kind f'.kind

/-- All that the source of a field can be: a path, or something that leaves the field aside. -/
theorem ofSource_cases (h : ofSource reg m d f = .ok f') :
    (∃ path, d.path? = some path ∧ ofPath reg m d path f = .ok f') ∨ Aside d f f' := by
  have hplain : ∀ {b : Bool}, ¬ b = true → b = d.nested.isSome → d.nested = none := by
    rintro b hb rfl
    simpa using hb
  unfold ofSource at h
  split at h
  · rename_i hsource
    split at h
    · split at h
      · cases h
      · rename_i hnested
        cases h
        exact .inr ⟨rfl, rfl, rfl, rfl, rfl, rfl, .inl rfl, .unmapped (hplain hnested rfl)⟩
    · exact .inl ⟨d.name, by rw [FieldDecl.path?, hsource], h⟩
  · rename_i path hsource
    exact .inl ⟨path, by rw [FieldDecl.path?, hsource], h⟩
  · split at h
    · cases h
    · rename_i hnested
      obtain ⟨_, _, h⟩ := Outcome.bind_eq_ok.mp h
      cases h
      exact .inr ⟨rfl, rfl, rfl, rfl, rfl, rfl, .inr rfl, .expression _ (hplain hnested rfl)⟩
  · unfold ofQueryset at h
    simp only at h
    split at h
    case' h_1 => obtain ⟨_, _, h⟩ := Outcome.bind_eq_ok.mp h
    all_goals
      obtain ⟨link, _, h⟩ := Outcome.bind_eq_ok.mp h
      cases h
      exact .inr ⟨rfl, rfl, rfl, rfl, rfl, rfl, .inl rfl, .queryset ..⟩
  · unfold ofFunction at h
    simp only at h
    split at h
    · split at h
      · cases h
      · cases h
        exact .inr ⟨rfl, rfl, rfl, rfl, rfl, rfl, .inl rfl, .function _⟩
    · obtain ⟨related, _, h⟩ := Outcome.bind_eq_ok.mp h
      cases h
      exact .inr ⟨rfl, rfl, rfl, rfl, rfl, rfl, .inl rfl, .function _⟩
  · split at h
    · cases h
    · rename_i hnested
      cases h
      exact .inr ⟨rfl, rfl, rfl, rfl, rfl, rfl, .inr rfl, .unmapped (hplain hnested rfl)⟩

/-! ## Declarations -/

/-- The field of a declaration before its source is looked at. -/
def begun (d : FieldDecl) (mode : Mode) : SchemaField :=
  { name := d.name, kind := .unmapped, mode, nested := d.nested, relatedSingle := d.single.getD false,
    silent := d.silent, default := d.default }

/-- A field of a declaration is what its source and its stamps make of it, unless it loses the writing. -/
theorem exists_ofSource (h : classify reg cat m d = .ok f) :
    ∃ mode g, mode.Lenient ∧ ofSource reg m d (begun d mode) = .ok g ∧
      (f = g.withStamps ∨ f = { g.withStamps with mode := g.withStamps.mode.withoutWriting }) := by
  unfold classify at h
  split at h
  -- With flags or without, the mode is lenient and the field goes on the same way.
  all_goals
    obtain ⟨mode, hmode, h⟩ := Outcome.bind_eq_ok.mp h
    have hlenient : mode.Lenient := by
      first
      | exact Mode.lenient_of_parse hmode
      | exact Except.ok.inj hmode ▸ Mode.lenient_default
    obtain ⟨g, hg, h⟩ := Outcome.bind_eq_ok.mp h
    refine ⟨mode, g, hlenient, hg, ?_⟩
    simp only at h
    split at h
    · cases h
    · obtain ⟨_, _, h⟩ := Outcome.bind_eq_ok.mp h
      cases h
      split
      · exact .inr rfl
      · exact .inl rfl

end SchemaField

end RecordMapper
