import RecordMapper.Proofs.Outcomes
import RecordMapper.Registry.Output

/-!
# Typed — which columns the type of an expression is read from

The type of an expression is read from some of its columns only: that of
a function from its first argument, that of a choice from its first
branch, and a count, an average or a quotient has its type whatever it
is of. These columns are the `typePaths` of the expression, the others
are `overlooked`. An expression has a type exactly if its functions are
known and each of its `typePaths` has one (`exists_outputType_iff`); so
those columns of a typed expression that do not resolve are overlooked
ones (`resolves_of_mem_columns`).
-/

namespace RecordMapper

namespace Scalar

/-- Whether a function has a type of its own. -/
def hasType (name : String) : Bool := ["LOWER", "UPPER", "CONCAT", "LENGTH"].contains (upperText name)

/-- Whether a function has the type of its first argument. -/
def keepsType (name : String) : Bool := ["ABS", "COALESCE"].contains (upperText name)

end Scalar

/-- Whether an aggregate has the type of what it is of. -/
def Aggregate.keepsType : Aggregate → Bool
  | .count | .avg => false
  | .sum | .min | .max => true

namespace Expression

/-- The paths that the type of an expression is read from, each with the model it starts at; `none` where a function is
unknown, or would have the type of an argument that it lacks. -/
def typePaths (m : Model) : Expression → Option (List (Model × String))
  | .column path => some [(m, path)]
  | .literal _ => some []
  | .call name [] => if Scalar.keepsType name then none else if Scalar.hasType name then some [] else none
  | .call name (e :: _) =>
    if Scalar.keepsType name then typePaths m e else if Scalar.hasType name then some [] else none
  | .aggregate func e _ _ => if func.keepsType then typePaths m e else some []
  | .choose [] none => some []
  | .choose [] (some e) => typePaths m e
  | .choose ((_, e) :: _) _ => typePaths m e
  | .subquery rows _ _ value => typePaths rows.model value
  | .arith op l r => if op = .div then some [] else do return (← typePaths m l) ++ (← typePaths m r)
termination_by structural e => e

/-- The columns of an expression that its type is not read from. -/
def overlooked : Expression → List String
  | .column _ => []
  | .literal _ => []
  | .call _ [] => []
  | .call name (e :: rest) => (if Scalar.keepsType name then overlooked e else columns e) ++ argColumns rest
  | .aggregate func e _ filter => (if func.keepsType then overlooked e else columns e) ++ filterPaths filter
  | .choose [] none => []
  | .choose [] (some e) => overlooked e
  | .choose ((q, e) :: rest) otherwise => q.paths ++ overlooked e ++ whenColumns rest ++ otherwiseColumns otherwise
  | .subquery _ _ outer _ => [outer]
  | .arith op l r => if op = .div then columns l ++ columns r else overlooked l ++ overlooked r
termination_by structural e => e

variable {m : Model} {path : String}

/-- Of a part that keeps its type only what that part overlooks is overlooked. -/
private theorem mem_columns_of_kept {e : Expression} {keeps : Bool} (he : path ∈ e.overlooked → path ∈ e.columns)
    (h : path ∈ if keeps then e.overlooked else e.columns) : path ∈ e.columns := by
  split at h
  · exact he h
  · exact h

private theorem kept_cases {e : Expression} {keeps : Bool} {other : Option (List (Model × String))}
    {ps : List (Model × String)} (hps : (if keeps then e.typePaths m else other) = some ps)
    (he : e.typePaths m = some ps → (m, path) ∈ ps ∨ path ∈ e.overlooked) (h : path ∈ e.columns) :
    (m, path) ∈ ps ∨ path ∈ if keeps then e.overlooked else e.columns := by
  cases keeps
  · exact .inr h
  · exact he hps

/-- A column that the type is not read from is a column. -/
theorem overlooked_subset : ∀ {e : Expression}, path ∈ e.overlooked → path ∈ e.columns
  | .call name (e :: rest), h => by
      have hfirst : path ∈ e.overlooked → path ∈ e.columns := overlooked_subset
      rw [overlooked, List.mem_append] at h
      rw [columns, argColumns, List.mem_append]
      exact h.imp_left (mem_columns_of_kept hfirst)
  | .aggregate func e _ filter, h => by
      have hof : path ∈ e.overlooked → path ∈ e.columns := overlooked_subset
      rw [overlooked, List.mem_append] at h
      rw [columns, List.mem_append]
      exact h.imp_left (mem_columns_of_kept hof)
  | .choose [] (some e), h => overlooked_subset (e := e) h
  | .choose ((q, e) :: rest) otherwise, h => by
      have hfirst : path ∈ e.overlooked → path ∈ e.columns := overlooked_subset
      rw [overlooked] at h
      rw [columns, whenColumns]
      simp only [List.mem_append] at h ⊢
      exact h.imp_left (Or.imp_left (Or.imp_right hfirst))
  | .subquery _ _ outer _, h => h
  | .arith op l r, h => by
      have hleft : path ∈ l.overlooked → path ∈ l.columns := overlooked_subset
      have hright : path ∈ r.overlooked → path ∈ r.columns := overlooked_subset
      rw [overlooked] at h
      rw [columns]
      split at h
      · exact h
      · exact List.mem_append.mpr ((List.mem_append.mp h).imp hleft hright)

/-- A column of an expression is one that its type is read from, or overlooked. -/
theorem mem_columns_cases : ∀ {e : Expression} {ps : List (Model × String)}, e.typePaths m = some ps →
    path ∈ e.columns → (m, path) ∈ ps ∨ path ∈ e.overlooked
  | .column own, ps, hps, h => by
      obtain rfl := List.mem_singleton.mp h
      obtain rfl := Option.some.inj hps
      exact .inl List.mem_cons_self
  | .call name (e :: rest), ps, hps, h => by
      rw [typePaths] at hps
      rw [columns, argColumns, List.mem_append] at h
      rw [overlooked, List.mem_append]
      rcases h with h | h
      · exact (kept_cases hps (fun hps => mem_columns_cases hps h) h).imp_right .inl
      · exact .inr (.inr h)
  | .aggregate func e _ filter, ps, hps, h => by
      rw [typePaths] at hps
      rw [columns, List.mem_append] at h
      rw [overlooked, List.mem_append]
      rcases h with h | h
      · exact (kept_cases hps (fun hps => mem_columns_cases hps h) h).imp_right .inl
      · exact .inr (.inr h)
  | .choose [] (some e), ps, hps, h => mem_columns_cases (e := e) hps h
  | .choose ((q, e) :: rest) otherwise, ps, hps, h => by
      have hfirst : path ∈ e.columns → (m, path) ∈ ps ∨ path ∈ e.overlooked := mem_columns_cases hps
      rw [columns, whenColumns] at h
      rw [overlooked]
      simp only [List.mem_append] at h ⊢
      tauto
  | .subquery _ _ outer _, ps, hps, h => .inr h
  | .arith op l r, ps, hps, h => by
      rw [typePaths] at hps
      rw [overlooked]
      split at hps
      · rw [if_pos ‹_›]
        exact .inr h
      · obtain ⟨left, hl, hps⟩ := Option.bind_eq_some_iff.mp hps
        obtain ⟨right, hr, hps⟩ := Option.bind_eq_some_iff.mp hps
        obtain rfl := Option.some.inj hps
        have hleft : path ∈ l.columns → (m, path) ∈ left ∨ path ∈ l.overlooked := mem_columns_cases hl
        have hright : path ∈ r.columns → (m, path) ∈ right ∨ path ∈ r.overlooked := mem_columns_cases hr
        rw [if_neg ‹_›, List.mem_append, List.mem_append]
        rw [columns, List.mem_append] at h
        tauto

end Expression

namespace Registry

variable {reg : Registry} {m : Model} {path : String} {t : FieldType}

/-! ## The types of expressions -/

/-- The paths that a type is read from are known, and have types themselves. -/
def Typed (reg : Registry) (paths : Option (List (Model × String))) : Prop :=
  ∃ ps, paths = some ps ∧ ∀ d ∈ ps, ∃ t, reg.pathType d.1 d.2 = .ok t

@[simp] theorem typed_some {ps : List (Model × String)} :
    reg.Typed (some ps) ↔ ∀ d ∈ ps, ∃ t, reg.pathType d.1 d.2 = .ok t := by
  simp [Typed]

@[simp] theorem not_typed_none : ¬ reg.Typed none := by
  simp [Typed]

theorem typed_append {ps qs : Option (List (Model × String))} :
    reg.Typed (do return (← ps) ++ (← qs)) ↔ reg.Typed ps ∧ reg.Typed qs := by
  cases ps <;> cases qs <;> simp [or_imp, forall_and]

theorem exists_callType_iff {name : String} {first : Option (Outcome FieldType)} :
    (∃ t, callType name first = .ok t) ↔
      if Scalar.keepsType name then ∃ t, first = some (.ok t) else Scalar.hasType name := by
  unfold callType Scalar.hasType Scalar.keepsType
  split
  case h_1 h | h_2 h | h_3 h | h_4 h => simp [h]
  case h_5 h | h_6 h => cases first <;> simp [h]
  case h_7 => simp_all

theorem outputType_arith (op : Arithmetic) (l r : Expression) : reg.outputType m (.arith op l r) =
    if op = .div then .ok .float
    else do
      let left ← reg.outputType m l
      let right ← reg.outputType m r
      return if left = .float ∨ right = .float then .float else left := by
  cases op <;> rfl

/-- An expression has a type exactly if each path has one that its type is read from. -/
theorem exists_outputType_iff : ∀ {m : Model} {e : Expression},
    (∃ t, reg.outputType m e = .ok t) ↔ reg.Typed (e.typePaths m)
  | m, .column path => by
      rw [Expression.typePaths, typed_some, List.forall_mem_singleton]
      exact Iff.rfl
  | m, .literal v => iff_of_true ⟨_, rfl⟩ ⟨[], rfl, List.forall_mem_nil _⟩
  | m, .call name [] => by
      show (∃ t, callType name none = .ok t) ↔ _
      rw [exists_callType_iff, Expression.typePaths]
      split
      · simp
      · split <;> simp [*]
  | m, .call name (e :: _) => by
      have hfirst : (∃ t, reg.outputType m e = .ok t) ↔ reg.Typed (e.typePaths m) := exists_outputType_iff
      show (∃ t, callType name (some (reg.outputType m e)) = .ok t) ↔ _
      rw [exists_callType_iff, Expression.typePaths]
      split
      · simpa using hfirst
      · split <;> simp [*]
  | m, .aggregate func e _ _ => by
      have hof : (∃ t, reg.outputType m e = .ok t) ↔ reg.Typed (e.typePaths m) := exists_outputType_iff
      cases func
      case count | avg => exact iff_of_true ⟨_, rfl⟩ (typed_some.mpr (List.forall_mem_nil _))
      all_goals exact hof
  | m, .choose [] none => iff_of_true ⟨_, rfl⟩ ⟨[], rfl, List.forall_mem_nil _⟩
  | m, .choose [] (some e) => exists_outputType_iff (m := m) (e := e)
  | m, .choose ((_, e) :: _) _ => exists_outputType_iff (m := m) (e := e)
  | m, .subquery rows _ _ value => exists_outputType_iff (m := rows.model) (e := value)
  | m, .arith op l r => by
      have hleft : (∃ t, reg.outputType m l = .ok t) ↔ reg.Typed (l.typePaths m) := exists_outputType_iff
      have hright : (∃ t, reg.outputType m r = .ok t) ↔ reg.Typed (r.typePaths m) := exists_outputType_iff
      rw [outputType_arith, Expression.typePaths]
      split
      · simp
      · rw [typed_append, ← hleft, ← hright]
        constructor
        · rintro ⟨t, h⟩
          obtain ⟨left, hl, h⟩ := Outcome.bind_eq_ok.mp h
          obtain ⟨right, hr, -⟩ := Outcome.bind_eq_ok.mp h
          exact ⟨⟨left, hl⟩, right, hr⟩
        · rintro ⟨⟨left, hl⟩, right, hr⟩
          rw [hl, hr]
          exact ⟨_, rfl⟩

/-! ## The columns of typed expressions -/

/-- Whether a path leads somewhere. -/
def Resolves (reg : Registry) (m : Model) (path : String) : Prop := ∃ p, reg.resolvePath m path = .ok p

theorem resolves_of_pathType {t : FieldType} (h : reg.pathType m path = .ok t) : reg.Resolves m path := by
  obtain ⟨p, hp, -⟩ := Outcome.bind_eq_ok.mp h
  exact ⟨p, hp⟩

/-- A column of a typed expression resolves, or it is overlooked. -/
theorem resolves_of_mem_columns {e : Expression} (htyped : reg.Typed (e.typePaths m)) (h : path ∈ e.columns) :
    reg.Resolves m path ∨ path ∈ e.overlooked := by
  obtain ⟨ps, hps, htypes⟩ := htyped
  refine (Expression.mem_columns_cases hps h).imp_left fun hmem => ?_
  obtain ⟨t, ht⟩ := htypes _ hmem
  exact resolves_of_pathType ht

/-- The columns of a typed expression resolve if those do that are overlooked. -/
theorem resolves_columns_iff {e : Expression} (htyped : reg.Typed (e.typePaths m)) :
    (∀ path ∈ e.columns, reg.Resolves m path) ↔ ∀ path ∈ e.overlooked, reg.Resolves m path :=
  ⟨fun h path hpath => h path (Expression.overlooked_subset hpath),
    fun h path hpath => (resolves_of_mem_columns htyped hpath).elim id (h path)⟩

end Registry

end RecordMapper
