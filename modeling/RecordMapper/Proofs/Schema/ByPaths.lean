import RecordMapper.Proofs.Registry.Tracks
import RecordMapper.Proofs.Schema.Declared
import RecordMapper.Proofs.Read.Correlated

/-!
# By paths — schemas whose fields are declared by paths

A path is looked up when its schema is built, but where a field is read
from other rows the queries go by other paths: the way back to the row,
and what stands behind the relations, both from the model that these
lead to. They are tracks there unless a relation behind the first is
inherited (`tracks_rows`).

Where a schema needs queries of its own beside the fetch of its rows, a
field follows a relation, selects from a queryset or calls a function.
Columns, expressions and paths that lead to rows or values behind
relations need nothing but the first of these (`byRelations_of_build`).
-/

/-!
## Ways — how a field by a path is read

A path is read with its row, or it is cut: relations lead to other rows,
and what stands behind the cut is read from them. A path that ends in a
relation is relations all along; one that ends in a column is cut behind
its last to-many relation. Either way the rows are found by the path
back over the relations (`pathKind_of_classify`).
-/

namespace RecordMapper

open Registry Store

/-- The part of a path that leads to the rows it is read from: all of it if it ends in a relation, otherwise up to its
last to-many relation. -/
def ResolvedPath.toRows? (p : ResolvedPath) : Option ResolvedPath :=
  if p.last.field.isRelation then some p else (SchemaField.cutAtMany p).map Prod.fst

/-- A path is cut in two: relations that lead to rows of `target`, and steps to a column there. Where there are such
steps the cut is behind the last to-many relation, where there are none it is the end of the path. -/
structure CutAtRows (reg : Registry) (p hop : ResolvedPath) (after : List PathStep) (target : Model) : Prop where
  toRows : p.toRows? = some hop
  steps : p.steps = hop.steps ++ after
  target : reg.targetModel hop = .ok (some target)
  single : ∀ s ∈ after, s.field.type.isMany = false
  column : ∀ last ∈ after.getLast?, hop.last.field.type.isMany ∧ last.field.isRelation = false

/-- How a field by a path is read: as a column, or from the rows of another model from which a path leads back. -/
inductive PathKind (reg : Registry) (path : String) (p : ResolvedPath) : FieldKind → Prop
  | column : PathKind reg path p (.column path)
  | rows {hop : ResolvedPath} {after : List PathStep} {target : Model} {link : String}
      (cut : CutAtRows reg p hop after target) (back : hop.reversePath? = some link) :
      PathKind reg path p (.isolated (.relation target link (innerPath target after)))

namespace SchemaField

variable {reg : Registry} {cat : Catalog} {m target : Model} {d : FieldDecl} {f f' : SchemaField}
  {path link value : String} {p : ResolvedPath}

theorem exists_of_cutAtMany {hop : ResolvedPath} {names : List String} (h : cutAtMany p = some (hop, names)) :
    ∃ behind, p.steps = hop.before ++ [hop.last] ++ behind ∧ hop.last.field.type.isMany ∧
      (∀ s ∈ behind, s.field.type.isMany = false) ∧ names = behind.map fun s => s.field.name := by
  rw [cutAtMany] at h
  split at h
  · cases h
  · rename_i s i hfound
    cases h
    obtain ⟨before, behind, hsteps, rfl, hmany, hsingle⟩ := exists_of_find?_isMany hfound
    have htake : p.steps.take before.length = before := by
      rw [hsteps, List.append_assoc, List.take_left]
    have hdrop : p.steps.drop (before.length + 1) = behind := by
      rw [hsteps]
      exact List.drop_left' (by simp)
    refine ⟨behind, ?_, hmany, hsingle, by rw [hdrop]⟩
    rw [htake, hsteps]

/-- A path to a relation is not cut. -/
theorem cutAtRows_self (hrelation : p.last.field.isRelation) (htarget : reg.targetModel p = .ok (some target)) :
    CutAtRows reg p p [] target where
  toRows := if_pos hrelation
  steps := (List.append_nil p.steps).symm
  target := htarget
  single := List.forall_mem_nil _
  column := by simp

/-- A path to a column is cut behind its last to-many relation. -/
theorem exists_cutAtRows {hop : ResolvedPath} {names : List String} (hplain : p.last.field.isRelation = false)
    (hcut : cutAtMany p = some (hop, names)) (htarget : reg.targetModel hop = .ok (some target)) :
    ∃ after, CutAtRows reg p hop after target ∧ ".".intercalate names = innerPath target after := by
  obtain ⟨behind, hsteps, hmany, hsingle, rfl⟩ := exists_of_cutAtMany hcut
  have htoRows : p.toRows? = some hop := by
    rw [ResolvedPath.toRows?, hplain, hcut]
    rfl
  rcases List.eq_nil_or_concat behind with rfl | ⟨rest, last, rfl⟩
  · -- Behind the relation there is at least the column.
    have hend : p.last = hop.last := by
      rw [List.append_nil, ResolvedPath.steps] at hsteps
      exact List.singleton_inj.mp (List.append_inj' hsteps rfl).2
    rw [hend, isRelation_of_isMany hmany] at hplain
    cases hplain
  · rw [List.concat_eq_append] at *
    have hend : p.last = last := by
      rw [← List.append_assoc, ResolvedPath.steps] at hsteps
      exact List.singleton_inj.mp (List.append_inj' hsteps rfl).2
    refine ⟨rest ++ [last], ⟨htoRows, hsteps, htarget, hsingle, fun last' hlast => ?_⟩, ?_⟩
    · rw [List.getLast?_concat, Option.mem_some_iff] at hlast
      exact ⟨hmany, hlast ▸ hend ▸ hplain⟩
    · rw [innerPath, if_neg (by simp)]
      rfl

theorem pathKind_ofPath (hp : reg.resolvePath m path = .ok p) (h : ofPath reg m d path f = .ok f') :
    PathKind reg path p f'.kind := by
  obtain ⟨p', hp', h⟩ := fromPath_of_ofPath h
  obtain rfl : p = p' := Except.ok.inj (hp.symm.trans hp')
  cases h with
  | column => exact .column
  | foreign => exact .column
  | @rows target link _ relation leads back _ =>
      have hkind : PathKind reg path p (.isolated (.relation target link (innerPath target []))) :=
        .rows (cutAtRows_self relation leads) back
      rwa [innerPath, if_pos List.isEmpty_nil] at hkind
  | behind plain cut leads back =>
      obtain ⟨after, hcut, hinner⟩ := exists_cutAtRows plain cut leads
      rw [hinner]
      exact .rows hcut back

/-- A declaration by a path that resolves is classified by that path. -/
theorem ofPath_of_ofSource (hpath : d.path? = some path) (hp : reg.resolvePath m path = .ok p)
    (h : ofSource reg m d f = .ok f') : ofPath reg m d path f = .ok f' := by
  unfold FieldDecl.path? at hpath
  unfold ofSource at h
  split at hpath
  · rename_i hsource
    obtain rfl := Option.some.inj hpath
    rw [hsource] at h
    simp only at h
    rw [if_neg] at h
    · exact h
    · -- A name without a dot that resolves is that of a field.
      intro hnone
      rw [Bool.and_eq_true, Bool.not_eq_true', Option.isNone_iff_eq_none, List.contains_eq_mem,
        decide_eq_false_iff_not] at hnone
      have hone := dottedNames_self hnone.1
      obtain ⟨name, hnames, hfield⟩ := name_of_direct hp (direct_of_one hp (congrArg List.length hone))
      obtain rfl := List.singleton_inj.mp (hone.symm.trans hnames)
      rw [field_eq_ok, hnone.2] at hfield
      cases hfield
  · rename_i hsource
    obtain rfl := Option.some.inj hpath
    rw [hsource] at h
    exact h
  · cases hpath

/-- How a field is read that is declared by a path. -/
theorem pathKind_of_classify (h : classify reg cat m d = .ok f) (hpath : d.path? = some path)
    (hp : reg.resolvePath m path = .ok p) : PathKind reg path p f.kind := by
  obtain ⟨mode, g, hsource, hsame⟩ := exists_sameReading h
  rw [hsame.kind]
  exact pathKind_ofPath hp (ofPath_of_ofSource hpath hp hsource)

end SchemaField

end RecordMapper

/-! ## Tracks where rows are read -/

namespace RecordMapper

open Registry

/-- A field that is declared by a path. If it is read from other rows, no relation of those that lead to them is
inherited, except the first. -/
inductive SchemaField.ByPath (reg : Registry) (m : Model) (f : SchemaField) : Prop
  | intro {cat : Catalog} {d : FieldDecl} {path : String} {p : ResolvedPath}
      (classified : classify reg cat m d = .ok f) (declared : d.path? = some path)
      (resolves : reg.resolvePath m path = .ok p) (straight : f.isIsolated → ∀ hop ∈ p.toRows?, hop.Straight)

/-- A schema all of whose fields are declared by paths. -/
structure Schema.ByPaths (reg : Registry) (s : Schema) : Prop where
  model : s.model ∈ reg.models
  fields : ∀ f ∈ s.fieldList, f.ByPath reg s.model

/-- The schemas that a read of a schema can come to. -/
inductive Catalog.Reaches (cat : Catalog) (s : Schema) : Schema → Prop
  | self : Reaches cat s s
  | nested {owner t : Schema} {f : SchemaField} {r : NestedRef} (h : Reaches cat s owner) (hf : f ∈ owner.fieldList)
      (hr : f.nested = some r) (ht : cat.resolve owner r = .ok t) : Reaches cat s t

variable {decls : List ModelDecl} {reg : Registry} {cat : Catalog} {s : Schema} {m : Model} {f : SchemaField}
  {path : String}

/-! ## The paths of a field -/

namespace SchemaField.ByPath

variable (hb : Registry.build decls = .ok reg) (htold : Told reg) (hm : m ∈ reg.models) (h : f.ByPath reg m)
include h

/-- A field by a path is read as a column or from other rows. -/
theorem kind_cases : (∃ path, f.kind = .column path) ∨
    ∃ target link value, f.kind = .isolated (.relation target link value) := by
  obtain ⟨hclassified, hdeclared, hresolves, -⟩ := h
  have hkind := pathKind_of_classify hclassified hdeclared hresolves
  generalize f.kind = kind at hkind
  cases hkind with
  | column => exact .inl ⟨_, rfl⟩
  | rows => exact .inr ⟨_, _, _, rfl⟩

/-- The path of a column is a track. -/
theorem tracks_column (hcolumn : f.kind = .column path) : ∃ steps, Tracks reg m (dottedNames path) steps := by
  obtain ⟨hclassified, hdeclared, hresolves, -⟩ := h
  have hkind := pathKind_of_classify hclassified hdeclared hresolves
  rw [hcolumn] at hkind
  cases hkind
  exact ⟨_, tracks_of_resolvePath hresolves⟩

include hb htold hm

/-- The way back from the rows of a field is a track, and so is the path to what is read from them. -/
theorem tracks_rows {target : Model} {link value : String} (hrows : f.kind = .isolated (.relation target link value)) :
    target ∈ reg.models ∧ (∃ steps, Tracks reg target (dottedNames link) steps) ∧
      ∃ steps, Tracks reg target (dottedNames value) steps := by
  obtain ⟨settled, hbuilt⟩ := builtFrom_of_build hb
  obtain ⟨hclassified, hdeclared, hresolves, hstraight⟩ := h
  have hkind := pathKind_of_classify hclassified hdeclared hresolves
  rw [hrows] at hkind
  cases hkind with
  | @rows hop after _ _ cut back =>
      have htracks := tracks_of_resolvePath hresolves
      have hdots := htracks.undotted htold hm fun n hn => not_mem_of_mem_dottedNames hn
      rw [cut.steps] at htracks hdots
      have hrelated := related_of_targetModel cut.target
      have htarget := mem_of_related hrelated
      obtain ⟨first, hfirst⟩ := htracks.front
      have hstraight := hstraight (by rw [isIsolated, hrows]) hop cut.toRows
      refine ⟨htarget, tracks_back (hbuilt.paired htold.sides) htold hm hfirst hstraight cut.target back, ?_⟩
      rw [innerPath]
      split
      · exact Tracks.key hb htold htarget
      · rename_i hne
        have hne : after ≠ [] := by simpa using hne
        obtain ⟨rest, hrest⟩ := htracks.behind hne hrelated
        rw [ResolvedPath.joinNames, dottedNames_intercalate (by simpa using hne)]
        · exact ⟨after, hrest.respelled⟩
        · intro n hn
          rw [List.map_append] at hdots
          exact hdots n (List.mem_append_right _ hn)

end SchemaField.ByPath

/-! ## Schemas that are built -/

/-- A declaration by a path that leads to other rows over relations of which only the first may be inherited. -/
def FieldDecl.Straight (reg : Registry) (m : Model) (d : FieldDecl) : Prop :=
  ∃ path ∈ d.path?, ∃ p ∈ (reg.resolvePath m path).toOption, ∀ hop ∈ p.toRows?, hop.Straight

instance (reg : Registry) (m : Model) (d : FieldDecl) : Decidable (d.Straight reg m) :=
  inferInstanceAs (Decidable (∃ path ∈ d.path?, ∃ p ∈ (reg.resolvePath m path).toOption,
    ∀ hop ∈ p.toRows?, hop.Straight))

theorem FieldDecl.Straight.byPath {d : FieldDecl} (h : d.Straight reg m)
    (hclassify : SchemaField.classify reg cat m d = .ok f) : f.ByPath reg m := by
  obtain ⟨path, hpath, p, hp, hstraight⟩ := h
  exact ⟨hclassify, hpath, Outcome.toOption_eq_some.mp hp, fun _ => hstraight⟩

/-- The relations that lead to the rows a path is read from are the first steps of the path. -/
theorem ResolvedPath.exists_of_toRows {p hop : ResolvedPath} (h : p.toRows? = some hop) :
    ∃ after, p.steps = hop.steps ++ after := by
  rw [toRows?] at h
  split at h
  · obtain rfl := Option.some.inj h
    exact ⟨[], (List.append_nil _).symm⟩
  · obtain ⟨⟨_, names⟩, hcut, rfl⟩ := Option.map_eq_some_iff.mp h
    obtain ⟨after, hsteps, _⟩ := SchemaField.exists_of_cutAtMany hcut
    exact ⟨after, hsteps⟩

/-- A path without relations is straight. -/
theorem ResolvedPath.straight_of_direct {p : ResolvedPath} (hdirect : p.before = []) :
    ∀ hop ∈ p.toRows?, hop.Straight := by
  intro hop hhop
  obtain ⟨after, hsteps⟩ := exists_of_toRows hhop
  have hlength := congrArg List.length hsteps
  simp only [steps, hdirect, List.length_append, List.length_nil, List.length_singleton] at hlength
  have hbefore : hop.before = [] := List.length_eq_zero_iff.mp (by omega)
  rw [Straight, steps, hbefore]
  exact List.forall_mem_nil _

/-- Without inheritance a declaration by a path that resolves is straight. -/
theorem FieldDecl.straight_of_flat {d : FieldDecl} {p : ResolvedPath} (hflat : ∀ m ∈ reg.models, m.parent = none)
    (hm : m ∈ reg.models) (hpath : d.path? = some path) (hp : reg.resolvePath m path = .ok p) : d.Straight reg m := by
  refine ⟨path, hpath, p, Outcome.toOption_eq_some.mpr hp, fun hop hhop s hs => ?_⟩
  obtain ⟨after, hsteps⟩ := ResolvedPath.exists_of_toRows hhop
  refine (tracks_of_resolvePath hp).mem_localFields hflat hm s ?_
  rw [hsteps]
  exact List.mem_append_left _ (List.mem_of_mem_tail hs)

/-- A schema that is built from such declarations is declared by paths, its primary key included. -/
theorem Schema.byPaths_of_build {name : String} {fields : List FieldDecl} (hb : Registry.build decls = .ok reg)
    (htold : Told reg) (hm : m ∈ reg.models) (hfields : ∀ d ∈ fields, d.Straight reg m)
    (h : Schema.build reg cat name m fields = .ok s) : s.ByPaths reg := by
  have hmodel := Schema.model_of_build h
  subst hmodel
  -- The primary key is added under its name, which is a path.
  have hkey : ∀ f, SchemaField.classify reg cat s.model { name := s.model.pkName, mode := some "r" } = .ok f →
      f.ByPath reg s.model := by
    intro f hclassify
    obtain ⟨_, g, _, hsource, _⟩ := SchemaField.exists_ofSource hclassify
    have hfound := Option.isSome_iff_ne_none.mp (exists_keyField_of_build hb hm)
    rw [SchemaField.ofSource] at hsource
    simp only at hsource
    rw [if_neg (by simp [hfound])] at hsource
    obtain ⟨p, hp, _⟩ := Outcome.bind_eq_ok.mp hsource
    have hdirect := direct_of_one hp (congrArg List.length (dottedNames_self (htold.key s.model hm)))
    exact ⟨hclassify, rfl, hp, fun _ => ResolvedPath.straight_of_direct hdirect⟩
  have hall := Schema.forall_of_build (fun d hd _ hf => (hfields d hd).byPath hf) hkey h
  refine ⟨hm, fun f hf => ?_⟩
  obtain ⟨e, he, rfl⟩ := List.mem_map.mp hf
  exact hall e he

end RecordMapper

namespace RecordMapper

/-- Whatever a schema resolves by queries of its own follows a relation. -/
def Schema.ByRelations (s : Schema) : Prop :=
  ∀ f ∈ s.fieldList, ∀ how, f.kind = .isolated how → ∃ target link value, how = .relation target link value

/-- A declaration of a column, an expression or a relation path: neither a queryset nor a function is its source. -/
def FieldDecl.FromModel (d : FieldDecl) : Prop := (∀ qs, d.source ≠ .queryset qs) ∧ ∀ g, d.source ≠ .function g

/-- What a path leads to is read as a column or follows a relation. -/
theorem SchemaField.relation_of_ofPath {reg : Registry} {m : Model} {d : FieldDecl} {path : String} {f f' : SchemaField}
    (h : ofPath reg m d path f = .ok f') :
    ∀ how, f'.kind = .isolated how → ∃ target link value, how = .relation target link value := by
  obtain ⟨p, _, hpath⟩ := fromPath_of_ofPath h
  cases hpath with
  | column => exact nofun
  | foreign => exact nofun
  | rows =>
      rintro how ⟨⟩
      exact ⟨_, _, _, rfl⟩
  | behind =>
      rintro how ⟨⟩
      exact ⟨_, _, _, rfl⟩

theorem SchemaField.relation_of_classify {reg : Registry} {cat : Catalog} {m : Model} {d : FieldDecl} {f : SchemaField}
    (hd : d.FromModel) (h : classify reg cat m d = .ok f) :
    ∀ how, f.kind = .isolated how → ∃ target link value, how = .relation target link value := by
  obtain ⟨mode, g, hsource, hsame⟩ := exists_sameReading h
  rw [hsame.kind]
  rw [ofSource] at hsource
  cases hdecl : d.source with
  | implicit =>
      simp only [hdecl] at hsource
      split at hsource
      · split at hsource
        · cases hsource
        · cases hsource
          intro how hhow
          cases hhow
      · exact relation_of_ofPath hsource
  | path path =>
      simp only [hdecl] at hsource
      exact relation_of_ofPath hsource
  | expression e =>
      simp only [hdecl] at hsource
      split at hsource
      · cases hsource
      · obtain ⟨_, _, hsource⟩ := Outcome.bind_eq_ok.mp hsource
        cases hsource
        intro how hhow
        cases hhow
  | queryset qs => exact absurd hdecl (hd.1 qs)
  | function g => exact absurd hdecl (hd.2 g)
  | property p =>
      simp only [hdecl] at hsource
      split at hsource
      · cases hsource
      · cases hsource
        intro how hhow
        cases hhow

/-- A schema of columns, expressions and relation paths resolves relations alone. -/
theorem Schema.byRelations_of_build {reg : Registry} {cat : Catalog} {name : String} {m : Model} {decls : List FieldDecl}
    {s : Schema} (hdecls : ∀ d ∈ decls, d.FromModel) (h : Schema.build reg cat name m decls = .ok s) :
    s.ByRelations := by
  have hkey : ({ name := m.pkName, mode := some "r" } : FieldDecl).FromModel := ⟨nofun, nofun⟩
  have hall := Schema.forall_of_build (fun d hd _ hf => SchemaField.relation_of_classify (hdecls d hd) hf)
    (fun _ hf => SchemaField.relation_of_classify hkey hf) h
  intro f hf
  obtain ⟨e, he, rfl⟩ := List.mem_map.mp hf
  exact hall e he

end RecordMapper
