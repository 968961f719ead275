import RecordMapper.Store.Select
import RecordMapper.Proofs.Entries
import RecordMapper.Proofs.Outcomes

/-!
# Annotations — what named expressions mean

An annotation means its expression, read with the other annotations in
place (`annotationsOf_eq`). Names with the same expressions mean the
same, in whatever order they are listed, and an expression asks for the
meaning of the names among its columns alone (`eval_congr`).
-/

namespace RecordMapper

/-! ## Meanings that are tied together -/

namespace Named

variable {meanings meanings' : List (String × OpenValue)} {name : String} {steps steps' : Nat}

theorem tie_nil (steps : Nat) : tie steps [] = fun _ => none := by
  cases steps <;> rfl

theorem tie_succ (steps : Nat) (meanings : List (String × OpenValue)) (name : String) : tie (steps + 1) meanings name =
    (meanings.lookup name).map fun meaning => meaning (tie steps (eraseEntry meanings name)) := rfl

theorem length_eraseEntry_lt {meaning : OpenValue} (h : meanings.lookup name = some meaning) :
    (eraseEntry meanings name).length < meanings.length :=
  List.length_filter_lt_length_iff_exists.mpr ⟨(name, meaning), mem_of_lookup h, by simp⟩

/-- More steps than there are meanings tie no more. -/
theorem tie_eq_tie (h : meanings.length ≤ steps) (h' : meanings.length ≤ steps') :
    tie steps meanings = tie steps' meanings := by
  induction steps generalizing steps' meanings with
  | zero => rw [List.length_eq_zero_iff.mp (Nat.le_zero.mp h), tie_nil, tie_nil]
  | succ steps ih =>
      cases steps' with
      | zero => rw [List.length_eq_zero_iff.mp (Nat.le_zero.mp h'), tie_nil, tie_nil]
      | succ steps' =>
          funext name
          rw [tie_succ, tie_succ]
          cases hlookup : meanings.lookup name with
          | none => rfl
          | some meaning =>
              have hless := length_eraseEntry_lt hlookup
              have hrest : tie steps (eraseEntry meanings name) = tie steps' (eraseEntry meanings name) :=
                ih (by omega) (by omega)
              rw [Option.map_some, Option.map_some, hrest]

/-- A name means what it is given to mean while the other names have their meanings. -/
theorem ofMeanings_eq (meanings : List (String × OpenValue)) (name : String) : ofMeanings meanings name =
    (meanings.lookup name).map fun meaning => meaning (ofMeanings (eraseEntry meanings name)) := by
  rw [ofMeanings, tie_eq_tie (Nat.le_refl _) (Nat.le_succ _), tie_succ]
  cases hlookup : meanings.lookup name with
  | none => rfl
  | some meaning =>
      rw [Option.map_some, Option.map_some, tie_eq_tie (Nat.le_of_lt (length_eraseEntry_lt hlookup)) (Nat.le_refl _)]
      rfl

theorem tie_congr (h : ∀ name, meanings.lookup name = meanings'.lookup name) (steps : Nat) :
    tie steps meanings = tie steps meanings' := by
  induction steps generalizing meanings meanings' with
  | zero => rfl
  | succ steps ih =>
      funext name
      rw [tie_succ, tie_succ, h name, ih fun other => ?_]
      by_cases hother : other = name
      · rw [hother, lookup_eq_none_iff_not_mem_keys.mpr fun hmem => (mem_keys_eraseEntry.mp hmem).2 rfl,
          lookup_eq_none_iff_not_mem_keys.mpr fun hmem => (mem_keys_eraseEntry.mp hmem).2 rfl]
      · rw [lookup_eraseEntry_ne _ hother, lookup_eraseEntry_ne _ hother, h other]

/-- The order of the names does not matter. -/
theorem ofMeanings_congr (h : ∀ name, meanings.lookup name = meanings'.lookup name) :
    ofMeanings meanings = ofMeanings meanings' := by
  have hsteps := tie_congr h (max meanings.length meanings'.length)
  rw [ofMeanings, ofMeanings, tie_eq_tie (Nat.le_refl _) (Nat.le_max_left _ meanings'.length), hsteps,
    tie_eq_tie (Nat.le_max_right _ _) (Nat.le_refl _)]

end Named

variable {reg : Registry} {st : Store} {m : Model} {named named' : Named}

/-! ## What is read through names -/

namespace Condition

variable {values values' : String → Outcome (List Value)}

mutual

/-- A condition looks at its paths alone. -/
theorem holds_congr : ∀ {q : Condition}, (∀ p ∈ q.paths, values p = values' p) → q.holds values = q.holds values'
  | .test path _, h => by rw [holds, holds, h path List.mem_cons_self]
  | .all _, h => allHold_congr h
  | .any _, h => anyHolds_congr h
  | .not part, h => by
      have hpart : part.holds values = part.holds values' := holds_congr h
      rw [holds, holds, hpart]

theorem allHold_congr : ∀ {qs : List Condition}, (∀ p ∈ partPaths qs, values p = values' p) →
    allHold values qs = allHold values' qs
  | [], _ => rfl
  | q :: rest, h => by
      rw [partPaths] at h
      rw [allHold, allHold, holds_congr fun p hp => h p (List.mem_append_left _ hp),
        allHold_congr fun p hp => h p (List.mem_append_right _ hp)]

theorem anyHolds_congr : ∀ {qs : List Condition}, (∀ p ∈ partPaths qs, values p = values' p) →
    anyHolds values qs = anyHolds values' qs
  | [], _ => rfl
  | q :: rest, h => by
      rw [partPaths] at h
      rw [anyHolds, anyHolds, holds_congr fun p hp => h p (List.mem_append_left _ hp),
        anyHolds_congr fun p hp => h p (List.mem_append_right _ hp)]

end

end Condition

namespace Store

theorem columnValues_congr {path : String} (h : named path = named' path) (pk : Value) :
    columnValues reg st m named pk path = columnValues reg st m named' pk path := by
  rw [columnValues, columnValues, h]

theorem columnValue_congr {path : String} (h : named path = named' path) (pk : Value) :
    columnValue reg st m named pk path = columnValue reg st m named' pk path := by
  rw [columnValue, columnValue, columnValues_congr h]

theorem relatedPasses_congr {filter : Option Condition} (h : ∀ p ∈ Expression.filterPaths filter, named p = named' p)
    (pk : Value) (path : String) (target : Model) (related : Value) :
    relatedPasses reg st m named pk path target related filter =
      relatedPasses reg st m named' pk path target related filter := by
  cases filter with
  | none => rfl
  | some q =>
      refine Condition.holds_congr fun p hp => ?_
      rw [columnValues_congr (h p hp)]

/-- What an aggregate collects depends on the names in its expression and its filter alone. -/
theorem aggregated_congr {e : Expression} {value value' : RowValue} {filter : Option Condition} {pk : Value}
    (hcolumns : ∀ p ∈ e.columns, named p = named' p) (hfilter : ∀ p ∈ Expression.filterPaths filter, named p = named' p)
    (hvalue : value pk = value' pk) :
    aggregated reg st m named e value filter pk = aggregated reg st m named' e value' filter pk := by
  have hpasses : ∀ q, filter = some q →
      q.holds (columnValues reg st m named pk) = q.holds (columnValues reg st m named' pk) := by
    rintro q rfl
    exact Condition.holds_congr fun p hp => columnValues_congr (hfilter p hp) pk
  have hbehind : ∀ before behind, valuesBehind reg st m named pk before behind filter =
      valuesBehind reg st m named' pk before behind filter := fun before behind => by
    rw [valuesBehind, valuesBehind]
    simp only [relatedPasses_congr hfilter]
  unfold aggregated
  simp only [hbehind, hvalue]
  cases filter with
  | none =>
      cases e with
      | column path => simp only [hcolumns path List.mem_cons_self]
      | _ => rfl
  | some q =>
      simp only [hpasses q rfl]
      cases e with
      | column path => simp only [hcolumns path List.mem_cons_self]
      | _ => rfl

end Store

namespace Expression

mutual

/-- An expression asks for the names among its columns alone. -/
theorem eval_congr : ∀ {e : Expression}, (∀ p ∈ e.columns, named p = named' p) →
    ∀ pk, e.eval reg st m named pk = e.eval reg st m named' pk
  | .column path, h, pk => Store.columnValue_congr (h path List.mem_cons_self) pk
  | .literal _, _, _ => rfl
  | .call name args, h, pk => by
      have hargs : evalArgs reg st m args named pk = evalArgs reg st m args named' pk := evalArgs_congr h pk
      rw [eval]
      simp only [hargs]
  | .aggregate func e distinct filter, h, pk => by
      rw [columns] at h
      have hcolumns : ∀ p ∈ e.columns, named p = named' p := fun p hp => h p (List.mem_append_left _ hp)
      have hfilter : ∀ p ∈ filterPaths filter, named p = named' p := fun p hp => h p (List.mem_append_right _ hp)
      have hvalue : e.eval reg st m named pk = e.eval reg st m named' pk := eval_congr hcolumns pk
      rw [eval]
      simp only [Store.aggregated_congr hcolumns hfilter hvalue]
  | .choose whens otherwise, h, pk => by
      rw [columns] at h
      have hwhens : evalWhens reg st m whens named pk = evalWhens reg st m whens named' pk :=
        evalWhens_congr (fun p hp => h p (List.mem_append_left _ hp)) pk
      have hotherwise : evalOtherwise reg st m otherwise named pk = evalOtherwise reg st m otherwise named' pk :=
        evalOtherwise_congr (fun p hp => h p (List.mem_append_right _ hp)) pk
      rw [eval]
      simp only [hwhens, hotherwise]
  | .subquery rows link outer value, h, pk => by
      have houter : Store.columnValue reg st m named pk outer = Store.columnValue reg st m named' pk outer :=
        Store.columnValue_congr (h outer List.mem_cons_self) pk
      rw [eval]
      simp only [houter]
  | .arith op l r, h, pk => by
      rw [columns] at h
      have hleft : l.eval reg st m named pk = l.eval reg st m named' pk :=
        eval_congr (fun p hp => h p (List.mem_append_left _ hp)) pk
      have hright : r.eval reg st m named pk = r.eval reg st m named' pk :=
        eval_congr (fun p hp => h p (List.mem_append_right _ hp)) pk
      rw [eval]
      simp only [hleft, hright]

theorem evalArgs_congr : ∀ {args : List Expression}, (∀ p ∈ argColumns args, named p = named' p) →
    ∀ pk, evalArgs reg st m args named pk = evalArgs reg st m args named' pk
  | [], _, _ => rfl
  | e :: rest, h, pk => by
      rw [argColumns] at h
      have hfirst : e.eval reg st m named pk = e.eval reg st m named' pk :=
        eval_congr (fun p hp => h p (List.mem_append_left _ hp)) pk
      have hrest : evalArgs reg st m rest named pk = evalArgs reg st m rest named' pk :=
        evalArgs_congr (fun p hp => h p (List.mem_append_right _ hp)) pk
      rw [evalArgs]
      simp only [hfirst, hrest]

theorem evalWhens_congr : ∀ {whens : List (Condition × Expression)}, (∀ p ∈ whenColumns whens, named p = named' p) →
    ∀ pk, evalWhens reg st m whens named pk = evalWhens reg st m whens named' pk
  | [], _, _ => rfl
  | (q, e) :: rest, h, pk => by
      rw [whenColumns] at h
      have hcondition : q.holds (Store.columnValues reg st m named pk) =
          q.holds (Store.columnValues reg st m named' pk) := Condition.holds_congr fun p hp =>
        Store.columnValues_congr (h p (List.mem_append_left _ (List.mem_append_left _ hp))) pk
      have hfirst : e.eval reg st m named pk = e.eval reg st m named' pk :=
        eval_congr (fun p hp => h p (List.mem_append_left _ (List.mem_append_right _ hp))) pk
      have hrest : evalWhens reg st m rest named pk = evalWhens reg st m rest named' pk :=
        evalWhens_congr (fun p hp => h p (List.mem_append_right _ hp)) pk
      rw [evalWhens]
      simp only [hcondition, hfirst, hrest]

theorem evalOtherwise_congr : ∀ {otherwise : Option Expression},
    (∀ p ∈ otherwiseColumns otherwise, named p = named' p) → ∀ pk, evalOtherwise reg st m otherwise named pk = evalOtherwise reg st m otherwise named' pk
  | none, _, _ => rfl
  | some _, h, pk => eval_congr h pk

end

/-- A name that has a meaning has its value. -/
theorem eval_column {name : String} {value : RowValue} (h : named name = some value) (pk : Value) :
    (column name).eval reg st m named pk = value pk := by
  show Store.columnValue reg st m named pk name = value pk
  simp only [Store.columnValue, Store.columnValues, h]
  cases value pk <;> rfl

/-! ## The annotations of a queryset -/

theorem lookup_meanings (annotations : List (String × Expression)) (name : String) :
    (meanings reg st m annotations).lookup name = (annotations.lookup name).map fun e => e.eval reg st m := by
  induction annotations with
  | nil => rfl
  | cons entry rest ih =>
      obtain ⟨own, e⟩ := entry
      rw [meanings, List.lookup_cons, List.lookup_cons]
      split
      · rfl
      · exact ih

theorem eraseEntry_meanings (annotations : List (String × Expression)) (name : String) :
    eraseEntry (meanings reg st m annotations) name = meanings reg st m (eraseEntry annotations name) := by
  induction annotations with
  | nil => rfl
  | cons entry rest ih =>
      obtain ⟨own, e⟩ := entry
      rw [meanings, eraseEntry, eraseEntry, List.filter_cons, List.filter_cons, ← eraseEntry, ← eraseEntry, ih]
      split
      · rfl
      · rfl

variable {qs qs' : Queryset} {name : String}

/-- An annotation means its expression while the others are in place. -/
theorem annotationsOf_eq (qs : Queryset) (name : String) : annotationsOf reg st qs name =
    (qs.annotations.lookup name).map fun e => e.eval reg st qs.model
      (annotationsOf reg st { qs with annotations := eraseEntry qs.annotations name }) := by
  obtain ⟨m, condition, annotations, ordering, offset, limit, nothing, database⟩ := qs
  simp only [annotationsOf]
  rw [Named.ofMeanings_eq, lookup_meanings, eraseEntry_meanings, Option.map_map]
  rfl

/-- Querysets whose names have the same expressions give them the same meanings. -/
theorem annotationsOf_congr (hmodel : qs.model = qs'.model)
    (h : ∀ name, qs.annotations.lookup name = qs'.annotations.lookup name) :
    annotationsOf reg st qs = annotationsOf reg st qs' := by
  obtain ⟨m, condition, annotations, ordering, offset, limit, nothing, database⟩ := qs
  obtain ⟨m', condition', annotations', ordering', offset', limit', nothing', database'⟩ := qs'
  obtain rfl : m = m' := hmodel
  simp only [annotationsOf]
  exact Named.ofMeanings_congr fun name => by rw [lookup_meanings, lookup_meanings, h]

/-- A name that no annotation has means no annotation. -/
theorem annotationsOf_eq_none (h : name ∉ qs.annotations.map Prod.fst) :
    annotationsOf reg st qs name = none := by
  rw [annotationsOf_eq, lookup_eq_none_iff_not_mem_keys.mpr h]
  rfl

/-- An annotation whose expression names no annotation means what the expression means without any. -/
theorem annotationsOf_of_lookup {e : Expression} (hlookup : qs.annotations.lookup name = some e)
    (hcolumns : ∀ p ∈ e.columns, p ∉ qs.annotations.map Prod.fst) :
    ∃ value, annotationsOf reg st qs name = some value ∧
      ∀ pk, value pk = e.eval reg st qs.model (fun _ => none) pk := by
  refine ⟨_, (annotationsOf_eq qs name).trans (by rw [hlookup]; rfl), eval_congr fun p hp => ?_⟩
  exact annotationsOf_eq_none fun hmem => hcolumns p hp (mem_keys_eraseEntry.mp hmem).1

end Expression

end RecordMapper
