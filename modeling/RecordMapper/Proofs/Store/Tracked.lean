import RecordMapper.Proofs.Registry.Tracks
import RecordMapper.Proofs.Steps.Twins
import RecordMapper.Store.Fetch

/-!
# Tracked — queries over names that are found

Whatever else goes wrong with a query, it does not fail for a field that
is not found if every path in it is a track. A step over the other side
of a relation looks the relation itself up once more, which the build of
the registry has made sure of (`step_findsFields`).
-/

namespace RecordMapper

/-- A failure whose root cause is another than a field that was not found. -/
def Failure.FieldsFound (f : Failure) : Prop := f.root.kind ≠ .fieldNotFound

/-- A result, or a failure for another reason than a field that was not found. -/
abbrev Outcome.FindsFields {α : Type} (r : Outcome α) : Prop := Outcome.Meets (fun _ => True) Failure.FieldsFound r

open Registry

variable {decls : List ModelDecl} {reg : Registry} {st : Store} {m target : Model} {named : Named} {names : List String}
  {steps : List PathStep} {f : Field} {name path link value : String} {key pk : Value} {qs : Queryset}

namespace Condition

variable {values : String → Outcome (List Value)} {P : Failure → Prop}

mutual

/-- A condition fails only as the reading of its paths does. -/
theorem holds_meets : ∀ {q : Condition}, (∀ p ∈ q.paths, (values p).Meets (fun _ => True) P) →
    (q.holds values).Meets (fun _ => True) P
  | .test path _, h => (h path List.mem_cons_self).bind fun _ _ => trivial
  | .all _, h => allHold_meets h
  | .any _, h => anyHolds_meets h
  | .not part, h => (holds_meets (q := part) h).bind fun _ _ => trivial

theorem allHold_meets : ∀ {qs : List Condition}, (∀ p ∈ partPaths qs, (values p).Meets (fun _ => True) P) →
    (allHold values qs).Meets (fun _ => True) P
  | [], _ => trivial
  | q :: rest, h => by
      rw [partPaths] at h
      refine (holds_meets fun p hp => h p (List.mem_append_left _ hp)).bind fun b _ => ?_
      cases b
      · exact trivial
      · exact allHold_meets fun p hp => h p (List.mem_append_right _ hp)

theorem anyHolds_meets : ∀ {qs : List Condition}, (∀ p ∈ partPaths qs, (values p).Meets (fun _ => True) P) →
    (anyHolds values qs).Meets (fun _ => True) P
  | [], _ => trivial
  | q :: rest, h => by
      rw [partPaths] at h
      refine (holds_meets fun p hp => h p (List.mem_append_left _ hp)).bind fun b _ => ?_
      cases b
      · exact anyHolds_meets fun p hp => h p (List.mem_append_right _ hp)
      · exact trivial

end

end Condition

theorem Registry.model_findsFields (reg : Registry) (name : String) : (reg.model name).FindsFields := by
  rw [model]
  split
  · exact trivial
  · rintro ⟨⟩

namespace Store

theorem linked_findsFields (through own other : String) (key : Value) :
    (linked reg st through own other key).FindsFields :=
  (model_findsFields reg through).bind fun _ _ => trivial

section Following

variable (hp : Paired reg) (htold : Told reg) (hm : m ∈ reg.models)
include hp htold hm

/-- A step does not fail for a field that is not found. -/
theorem step_findsFields (hf : reg.field m name = .ok f) (key : Value) : (step reg st m f key).FindsFields := by
  unfold step
  split
  · exact linked_findsFields ..
  · rename_i owner forward htype
    -- The relation on the other side is one of its model's fields.
    obtain ⟨level, hlevel, hmem⟩ := exists_level (field_eq_ok.mp hf)
    obtain ⟨r, hr, g, hg, hside⟩ :=
      hp.exists_owner (hp.rooted.mem_models hm hlevel) hmem (by rw [Field.isReverse, htype])
    have hrelation := hside.relatedModel?
    have hgname := hside.reverseName?
    rw [htype] at hrelation hgname
    obtain rfl : owner = r.name := Option.some.inj hrelation.2
    obtain rfl : forward = g.name := Option.some.inj hgname
    have hmodel : reg.model r.name = .ok r := by rw [model, hp.rooted.find?_name hr]
    have hgrel : g.isRelation := Option.isSome_iff_exists.mpr ⟨_, hrelation.1⟩
    have hfield : reg.field r g.name = .ok g :=
      field_eq_ok.mpr (htold.relation r hr r (reg.self_mem_lineage r) g (List.mem_append_left _ hg) hgrel).2
    rw [hmodel, Outcome.ok_bind, hfield, Outcome.ok_bind]
    split
    · exact linked_findsFields ..
    · rintro ⟨⟩
  · exact (model_findsFields reg _).bind fun _ _ => trivial
  · exact (model_findsFields reg _).bind fun _ _ => trivial
  · exact trivial

theorem follow_findsFields (start whole : String) (h : Tracks reg m names steps) (keys : List Value) :
    (follow reg st start whole m keys names).FindsFields := by
  induction h generalizing keys with
  | last hf =>
      cases keys with
      | nil => exact trivial
      | cons key rest =>
          rw [follow, hf, Outcome.ok_bind]
          · exact (Outcome.Meets.mapM fun key _ => step_findsFields hp htold hm hf key).bind fun _ _ => trivial
          · exact List.cons_ne_nil _ _
  | cons hf hrel hnext h ih =>
      cases keys with
      | nil => exact trivial
      | cons key rest =>
          rw [follow, hf, Outcome.ok_bind]
          · refine (Outcome.Meets.mapM fun key _ => step_findsFields hp htold hm hf key).bind fun reached _ => ?_
            split
            · exact trivial
            · rw [if_pos hrel, hnext, Outcome.ok_bind]
              exact ih (mem_of_related hnext) _
          · exact List.cons_ne_nil _ _

/-- What a path leads to that is a track, or the name of an annotation that finds its fields. -/
theorem columnValues_findsFields (hnamed : ∀ value, named path = some value → ∀ pk, (value pk).FindsFields)
    (h : Tracks reg m (dottedNames path) steps) (pk : Value) : (columnValues reg st m named pk path).FindsFields := by
  unfold columnValues
  split
  · rename_i value hvalue
    exact (hnamed value hvalue pk).bind fun _ _ => trivial
  · exact follow_findsFields hp htold hm _ _ h _

theorem columnCells_findsFields (hnamed : ∀ value, named path = some value → ∀ pk, (value pk).FindsFields)
    (h : Tracks reg m (dottedNames path) steps) (pk : Value) :
    (columnCells reg st m named pk (.column path)).FindsFields :=
  (columnValues_findsFields hp htold hm hnamed h pk).bind fun _ _ => trivial

/-- The rows that pass a test of a path. -/
theorem select_test_findsFields (h : Tracks reg m (dottedNames path) steps) (l : Lookup) :
    (select reg st ((Queryset.all m).filter (.test path l))).FindsFields := by
  show (selectKeys reg st m (fun _ => none) (some (.test path l)) [] 0 none none).FindsFields
  refine (Outcome.Meets.filterM fun pk _ => ?_).bind fun _ _ => trivial
  have hvalues : (columnValues reg st m (fun _ => none) pk path).FindsFields :=
    columnValues_findsFields hp htold hm (by rintro _ ⟨⟩) h pk
  refine (hvalues.bind fun _ _ => trivial : (passes reg st m _ (some (.test path l)) pk).FindsFields).bind fun b _ => ?_
  cases b <;> exact trivial

end Following

/-- Rows and columns that are found are fetched. -/
theorem fetch_findsFields {columns : List SelectColumn} (hselect : (select reg st qs).FindsFields)
    (hcolumns : ∀ c ∈ columns, ∀ pk,
      (columnCells reg st qs.model (Expression.annotationsOf reg st qs) pk c.expr).FindsFields) :
    (fetch reg st qs columns).FindsFields := by
  have hrow : ∀ pk, (rowRecords reg st qs.model (Expression.annotationsOf reg st qs) columns pk).FindsFields := by
    intro pk
    refine Outcome.Meets.foldlM (fun c hc _ _ => ?_) trivial
    exact (hcolumns c hc pk).bind fun _ _ => trivial
  rw [fetch]
  split
  · rintro ⟨⟩
  · exact hselect.bind fun pks _ => (Outcome.Meets.mapM fun pk _ => hrow pk).bind fun _ _ => trivial

end Store

end RecordMapper
