import RecordMapper.Proofs.Entries
import RecordMapper.Proofs.Registry.Typed
import RecordMapper.Proofs.Store.Tracked

/-!
# Exact — integer expressions against the unbounded integers

Sums, differences and products of 64-bit integers are checked: where the
exact result does not fit, arithmetic goes on with floats, and nothing
leads back from a float to an integer. So an integer that comes out of
an expression over integers and nulls is the exact one, with a single
exception. The magnitude of an integer is not checked, and that of the
least one is the least one again. Evaluation is exact in all its parts
just if it never takes that magnitude (`eval_exact`), and nothing but the
reading of a column makes it fail (`eval_meets`).
-/

namespace RecordMapper

/-! ## Outcomes side by side -/

namespace Outcome

variable {α β γ δ : Type} {R : α → β → Prop} {S : γ → δ → Prop}

/-- Two results that are related, or one failure. -/
inductive Agree (R : α → β → Prop) : Outcome α → Outcome β → Prop
  | ok {a : α} {b : β} (h : R a b) : Agree R (.ok a) (.ok b)
  | error (f : Failure) : Agree R (.error f) (.error f)

theorem Agree.bind {r : Outcome α} {s : Outcome β} {k : α → Outcome γ} {l : β → Outcome δ} (h : Agree R r s)
    (hk : ∀ a b, R a b → Agree S (k a) (l b)) : Agree S (r >>= k) (s >>= l) := by
  cases h with
  | ok h => exact hk _ _ h
  | error f => exact .error f

/-- Results that agree are those that the two come to. -/
theorem Agree.and_eq {r : Outcome α} {s : Outcome β} (h : Agree R r s) :
    Agree (fun a b => R a b ∧ r = .ok a ∧ s = .ok b) r s := by
  cases h with
  | ok h => exact .ok ⟨h, rfl, rfl⟩
  | error f => exact .error f

theorem Agree.eq_ok {r : Outcome α} {s : Outcome β} (h : Agree R r s) {a : α} (hr : r = .ok a) :
    ∃ b, s = .ok b ∧ R a b := by
  cases h with
  | ok h =>
      cases hr
      exact ⟨_, rfl, h⟩
  | error f => cases hr

/-- What agrees with a result is one. -/
theorem Agree.meets {P : Failure → Prop} {r : Outcome α} {b : β} (h : Agree R r (.ok b)) :
    r.Meets (fun a => ∃ b, R a b) P := by
  cases h with
  | ok h => exact ⟨b, h⟩

/-- What goes on from one result agrees if it does from that result. -/
theorem Agree.bind_self {r : Outcome α} {k : α → Outcome γ} {l : α → Outcome δ}
    (hk : ∀ a, r = .ok a → Agree S (k a) (l a)) : Agree S (r >>= k) (r >>= l) := by
  cases r with
  | ok a => exact hk a rfl
  | error f => exact .error f

end Outcome

/-! ## Values -/

namespace Value

/-- Whether a value is an integer or null. -/
def isIntegral : Value → Bool
  | .int _ => true
  | .null => true
  | _ => false

/-- The unbounded integer of an integer. -/
def whole? : Value → Option Int
  | .int n => some n.toInt
  | _ => none

/-- An integer stands for itself, null for no integer, and a float for any one. -/
inductive StandsFor : Value → Option Int → Prop
  | int (n : Int64) : StandsFor (.int n) (some n.toInt)
  | null : StandsFor .null none
  | float (x : Binary64) (n : Int) : StandsFor (.float x) (some n)

theorem standsFor_whole? {v : Value} (h : v.isIntegral) : v.StandsFor v.whole? := by
  cases v with
  | int n => exact .int n
  | null => exact .null
  | _ => cases h

theorem StandsFor.isNull_eq {v : Value} {x : Option Int} (h : v.StandsFor x) : v.isNull = x.isNone := by
  cases h <;> rfl

end Value

namespace Scalar

variable {v w : Value} {x y : Option Int} {op : Arithmetic} {name : String} {args : List Value} {xs : List (Option Int)}

/-- The operation on unbounded integers, none if an operand is missing. -/
def exactArith (op : Arithmetic) (x y : Option Int) : Option Int := do unbounded? op (← x) (← y)

/-- The first integer of some, or the magnitude of the first one. -/
def exactCall (name : String) (xs : List (Option Int)) : Option Int :=
  if upperText name = "COALESCE" then (xs.find? Option.isSome).join else (xs.headD none).map fun n => (n.natAbs : Int)

theorem exactCall_abs (h : upperText name = "ABS") :
    exactCall name xs = (xs.headD none).map fun n => (n.natAbs : Int) := by
  rw [exactCall, h]
  exact if_neg (by decide)

theorem keepsType_iff : keepsType name ↔ upperText name = "ABS" ∨ upperText name = "COALESCE" := by simp [keepsType]

theorem call_abs (h : upperText name = "ABS") : call name args =
    match args.headD .null with
    | .int n => .ok (.int (absInt n))
    | .float x => .ok (.float x.abs)
    | .null => .ok .null
    | other => .error (.absOfNonNumber other) := by
  rw [call, h]
  rfl

theorem call_coalesce (h : upperText name = "COALESCE") :
    call name args = .ok ((args.find? fun v => !v.isNull).getD .null) := by
  rw [call, h]
  rfl

/-- The magnitude of an integer is exact, but for the least one. -/
theorem toInt_absInt {n : Int64} (h : n ≠ Int64.minValue) : (absInt n).toInt = n.toInt.natAbs := by
  have hmin : Int64.minValue.toInt = -2 ^ 63 := by decide
  have hne : n.toInt ≠ -2 ^ 63 := fun he => h (Int64.toInt_inj.mp (he.trans hmin.symm))
  have hlow := n.le_toInt
  have hhigh := n.toInt_lt
  rw [absInt]
  split
  · rw [Int64.toInt_neg, Int.bmod_def]
    omega
  · omega

theorem exists_unbounded (hop : op ≠ .div) (a b : Int) : ∃ n, unbounded? op a b = some n := by
  cases op with
  | div => exact absurd rfl hop
  | _ => exact ⟨_, rfl⟩

theorem exists_onFloats (hop : op ≠ .div) (a b : Binary64) : ∃ z, onFloats op a b = .ok (.float z) := by
  cases op with
  | div => exact absurd rfl hop
  | _ => exact ⟨_, rfl⟩

/-- An operation on integers is exact, or goes on with floats. -/
theorem arith_agree (hop : op ≠ .div) (hv : v.StandsFor x) (hw : w.StandsFor y) :
    Outcome.Agree Value.StandsFor (arith op v w) (.ok (exactArith op x y)) := by
  -- Behind the integers any float stands for the exact result.
  have hfloat : ∀ (a b : Binary64) (k l : Int),
      Outcome.Agree Value.StandsFor (onFloats op a b) (.ok (exactArith op (some k) (some l))) := by
    intro a b k l
    obtain ⟨z, hz⟩ := exists_onFloats hop a b
    obtain ⟨n, hn⟩ := exists_unbounded hop k l
    rw [hz, show exactArith op (some k) (some l) = some n from hn]
    exact .ok (.float z n)
  cases hv with
  | null => exact .ok .null
  | float a k =>
      cases hw with
      | null => exact .ok .null
      | float b l => exact hfloat a b k l
      | int l => exact hfloat a _ k _
  | int k =>
      cases hw with
      | null => exact .ok .null
      | float b l => exact hfloat _ b _ l
      | int l =>
          obtain ⟨n, hn⟩ := exists_unbounded hop k.toInt l.toInt
          have hfits : onIntegers? op (.int k) (.int l) = (int64? n).map .int := by rw [onIntegers?, hn]; rfl
          unfold arith
          rw [hfits]
          cases hword : int64? n with
          | none => exact hfloat _ _ _ _
          | some r =>
              rw [show exactArith op (some k.toInt) (some l.toInt) = some n from hn, ← toInt_of_int64? hword]
              exact .ok (.int r)

/-- The first value that is not null stands for the first integer. -/
theorem find_agree (hargs : List.Forall₂ Value.StandsFor args xs) :
    ((args.find? fun v => !v.isNull).getD .null).StandsFor (xs.find? Option.isSome).join := by
  induction hargs with
  | nil => exact .null
  | @cons v x args xs h _ ih =>
      rw [List.find?_cons, List.find?_cons, h.isNull_eq]
      cases h with
      | null => exact ih
      | int n => exact .int n
      | float y n => exact .float y n

/-- A function of integers is exact where it does not take the magnitude of the least one. -/
theorem call_agree (hname : keepsType name) (hargs : List.Forall₂ Value.StandsFor args xs)
    (hleast : upperText name = "ABS" → args.head? ≠ some (.int Int64.minValue)) :
    Outcome.Agree Value.StandsFor (call name args) (.ok (exactCall name xs)) := by
  rcases keepsType_iff.mp hname with habs | hcoalesce
  · rw [call_abs habs, exactCall_abs habs]
    cases hargs with
    | nil => exact .ok .null
    | cons h _ =>
        cases h with
        | null => exact .ok .null
        | float y n => exact .ok (.float _ _)
        | int n =>
            have hn : n ≠ Int64.minValue := by
              rintro rfl
              exact hleast habs rfl
            have hexact := toInt_absInt hn
            show Outcome.Agree Value.StandsFor (.ok (.int (absInt n))) (.ok (some (n.toInt.natAbs : Int)))
            rw [← hexact]
            exact .ok (.int (absInt n))
  · rw [call_coalesce hcoalesce, exactCall, if_pos hcoalesce]
    exact .ok (find_agree hargs)

/-- A function of numbers and nulls has such a value. -/
theorem exists_call (hname : keepsType name) (hargs : ∀ v ∈ args, ∃ x, v.StandsFor x) :
    ∃ u, call name args = .ok u ∧ ∃ x, u.StandsFor x := by
  rcases keepsType_iff.mp hname with habs | hcoalesce
  · rw [call_abs habs]
    cases args with
    | nil => exact ⟨_, rfl, _, .null⟩
    | cons v rest =>
        obtain ⟨x, hx⟩ := hargs v List.mem_cons_self
        cases hx with
        | null => exact ⟨_, rfl, _, .null⟩
        | int n => exact ⟨_, rfl, _, .int _⟩
        | float y n => exact ⟨_, rfl, _, .float _ n⟩
  · rw [call_coalesce hcoalesce]
    refine ⟨_, rfl, ?_⟩
    cases hfirst : args.find? fun v => !v.isNull with
    | none => exact ⟨_, .null⟩
    | some v => exact hargs v (List.mem_of_find?_eq_some hfirst)

end Scalar

/-! ## Stores of integers -/

namespace Store

variable {reg : Registry} {st : Store} {m : Model} {named : Named} {pk : Value}

/-- Every key and every column of a store holds an integer or null. -/
def Integral (st : Store) : Prop :=
  ∀ t ∈ st.tables, ∀ row ∈ t.2.rows, row.1.isIntegral ∧ ∀ c ∈ row.2, c.2.isIntegral

instance (st : Store) : Decidable st.Integral :=
  inferInstanceAs (Decidable (∀ t ∈ st.tables, ∀ row ∈ t.2.rows, row.1.isIntegral ∧ ∀ c ∈ row.2, c.2.isIntegral))

/-- What is read is integers and nulls, if it is read. -/
abbrev ReadsIntegral (r : Outcome (List Value)) : Prop := r.Meets (fun vs => ∀ v ∈ vs, v.isIntegral) fun _ => True

namespace Integral

theorem row (hst : st.Integral) {row : Value × Record} (h : row ∈ (st.table m).rows) :
    row.1.isIntegral ∧ ∀ c ∈ row.2, c.2.isIntegral := by
  rw [table] at h
  cases htable : st.tables.lookup m.name with
  | none =>
      rw [htable] at h
      cases h
  | some t =>
      rw [htable] at h
      exact hst _ (mem_of_lookup htable) row h

theorem key (hst : st.Integral) (h : pk ∈ st.keys m) : pk.isIntegral := by
  obtain ⟨row, hrow, rfl⟩ := List.mem_map.mp h
  exact (hst.row hrow).1

theorem cell (hst : st.Integral) (hpk : pk.isIntegral) (m : Model) (name : String) :
    (cell reg st m pk name).isIntegral := by
  unfold Store.cell
  split
  · exact hpk
  · split
    · rfl
    · rename_i owner _
      split
      · rename_i row hrow
        have hcolumns := (hst.row (m := owner) (mem_of_lookup hrow)).2
        rw [Record.getD]
        cases hcolumn : row.lookup name with
        | none => rfl
        | some v => exact hcolumns _ (mem_of_lookup hcolumn)
      · rfl

theorem linked (hst : st.Integral) (through own other : String) (k : Value) :
    ReadsIntegral (linked reg st through own other k) := by
  refine Outcome.Meets.bind (Q := fun _ => True) ?_ fun links _ v hv => ?_
  · cases reg.model through <;> exact trivial
  · obtain ⟨row, hrow, rfl⟩ := List.mem_map.mp hv
    exact hst.cell (hst.key (List.mem_filter.mp hrow).1) links other

theorem referencing (hst : st.Integral) (owner : Outcome Model) (field : String) (k : Value) :
    ReadsIntegral (do return Store.referencing reg st (← owner) field k) := by
  cases owner with
  | error e => exact trivial
  | ok owner => exact fun v hv => hst.key (List.mem_filter.mp hv).1

theorem step (hst : st.Integral) {k : Value} (hk : k.isIntegral) (m : Model) (f : Field) : ReadsIntegral (step reg st m f k) := by
  unfold Store.step
  split
  · exact hst.linked ..
  · rename_i owner forward _
    cases reg.model owner with
    | error e => exact trivial
    | ok ownerModel =>
        rw [Outcome.ok_bind]
        cases reg.field ownerModel forward with
        | error e => exact trivial
        | ok declared =>
            rw [Outcome.ok_bind]
            split
            · exact hst.linked ..
            · exact trivial
  · exact hst.referencing ..
  · exact hst.referencing ..
  · exact List.forall_mem_singleton.mpr (hst.cell hk m f.name)

theorem follow (hst : st.Integral) (start whole : String) (m : Model) {keys : List Value}
    (hkeys : ∀ k ∈ keys, k.isIntegral) (names : List String) : ReadsIntegral (follow reg st start whole m keys names) := by
  induction names generalizing m keys with
  | nil =>
      rw [Store.follow.eq_def]
      cases keys <;> exact fun _ hv => absurd hv List.not_mem_nil
  | cons name rest ih =>
      cases keys with
      | nil => exact fun _ hv => absurd hv List.not_mem_nil
      | cons k keys =>
          rw [Store.follow]
          · cases reg.field m name with
            | error e => exact trivial
            | ok f =>
                rw [Outcome.ok_bind]
                refine (Outcome.Meets.mapM fun k hk => hst.step (hkeys k hk) m f).bind fun reached hreached => ?_
                have hall : ∀ v ∈ reached.flatten, v.isIntegral := by
                  intro v hv
                  obtain ⟨vs, hvs, hv⟩ := List.mem_flatten.mp hv
                  exact hreached vs hvs v hv
                split
                · exact hall
                · split
                  · cases reg.related m f with
                    | error e => exact trivial
                    | ok target => exact ih target fun v hv => hall v (List.mem_filter.mp hv).1
                  · exact trivial
          · exact List.cons_ne_nil _ _

/-- A path leads from a row to integers and nulls, and so does the name of an annotation that has such a value. -/
theorem columnValue (hst : st.Integral) (hpk : pk ∈ st.keys m)
    (hnamed : ∀ name value, named name = some value → ∀ v, value pk = .ok v → v.isIntegral) (path : String) :
    (columnValue reg st m named pk path).Meets (fun v => v.isIntegral) fun _ => True := by
  have hvalues : ReadsIntegral (columnValues reg st m named pk path) := by
    unfold columnValues
    split
    · rename_i value hvalue
      cases hv : value pk with
      | error e => exact trivial
      | ok v => exact List.forall_mem_singleton.mpr (hnamed path value hvalue v hv)
    · exact hst.follow _ _ m (List.forall_mem_singleton.mpr (hst.key hpk)) _
  refine hvalues.bind fun vs hvs => ?_
  cases vs with
  | nil => rfl
  | cons v vs => exact hvs v List.mem_cons_self

end Integral

end Store

/-! ## Expressions -/

namespace Expression

/-- An expression made of columns, integers, nulls, sums, differences, products, magnitudes, first values that are not
null, and choices. -/
inductive Integral : Expression → Prop
  | column (path : String) : Integral (.column path)
  | int (n : Int64) : Integral (.literal (.int n))
  | null : Integral (.literal .null)
  | arith {op : Arithmetic} {l r : Expression} (hop : op ≠ .div) (left : Integral l) (right : Integral r) :
      Integral (.arith op l r)
  | call {name : String} {args : List Expression} (hname : Scalar.keepsType name) (hargs : ∀ e ∈ args, Integral e) :
      Integral (.call name args)
  | choose {whens : List (Condition × Expression)} {otherwise : Option Expression}
      (hwhens : ∀ w ∈ whens, Integral w.2) (hotherwise : ∀ e ∈ otherwise, Integral e) :
      Integral (.choose whens otherwise)

mutual

/-- The unbounded integer of an expression, given what its paths lead to and which conditions hold. Aggregates and
subqueries have none here. -/
def exact (read : String → Outcome (Option Int)) (holds : Condition → Outcome Bool) :
    Expression → Outcome (Option Int)
  | .column path => read path
  | .literal v => .ok v.whole?
  | .call name args => do return Scalar.exactCall name (← exactArgs read holds args)
  | .choose whens otherwise => do
    match ← exactWhens read holds whens with
    | some x => return x
    | none => exactOtherwise read holds otherwise
  | .arith op l r => do
    let left ← exact read holds l
    return Scalar.exactArith op left (← exact read holds r)
  | .aggregate .. => .ok none
  | .subquery .. => .ok none

/-- The unbounded integers of arguments. -/
def exactArgs (read : String → Outcome (Option Int)) (holds : Condition → Outcome Bool) :
    List Expression → Outcome (List (Option Int))
  | [] => .ok []
  | e :: rest => do
    let x ← exact read holds e
    return x :: (← exactArgs read holds rest)

/-- The unbounded integer of the first branch whose condition holds. -/
def exactWhens (read : String → Outcome (Option Int)) (holds : Condition → Outcome Bool) :
    List (Condition × Expression) → Outcome (Option (Option Int))
  | [] => .ok none
  | (q, e) :: rest => do if ← holds q then return some (← exact read holds e) else exactWhens read holds rest

/-- The unbounded integer of the last branch, none if there is none. -/
def exactOtherwise (read : String → Outcome (Option Int)) (holds : Condition → Outcome Bool) :
    Option Expression → Outcome (Option Int)
  | none => .ok none
  | some e => exact read holds e

end

/-- The branch of a choice that is taken. -/
def branch (holds : Condition → Outcome Bool) (otherwise : Option Expression) :
    List (Condition × Expression) → Outcome (Option Expression)
  | [] => .ok otherwise
  | (q, e) :: rest => do if ← holds q then return some e else branch holds otherwise rest

section Row

variable (reg : Registry) (st : Store) (m : Model) (named : Named) (pk : Value)

/-- Whether a condition holds on a row. -/
def holdsAt (q : Condition) : Outcome Bool := q.holds (Store.columnValues reg st m named pk)

/-- The unbounded integer of an expression on a row. -/
def exactAt (e : Expression) : Outcome (Option Int) :=
  e.exact (fun path => (Store.columnValue reg st m named pk path).map Value.whole?) (holdsAt reg st m named pk)

/-- The parts that are evaluated for the value of an expression on a row, one step down: those before which no part
fails, and of a choice the branch that is taken. -/
inductive Asks : Expression → Expression → Prop
  | left {op : Arithmetic} {l r : Expression} : Asks (.arith op l r) l
  | right {op : Arithmetic} {l r : Expression} {v : Value} (hleft : l.eval reg st m named pk = .ok v) :
      Asks (.arith op l r) r
  | arg {name : String} {args before after : List Expression} {e : Expression} {vs : List Value}
      (hargs : args = before ++ e :: after) (hbefore : evalArgs reg st m before named pk = .ok vs) :
      Asks (.call name args) e
  | branch {whens : List (Condition × Expression)} {otherwise : Option Expression} {e : Expression}
      (h : branch (holdsAt reg st m named pk) otherwise whens = .ok (some e)) : Asks (.choose whens otherwise) e

/-- An expression and all its parts that are evaluated on a row. -/
def Parts : Expression → Expression → Prop := Relation.ReflTransGen (Asks reg st m named pk)

/-- The value of an expression on a row stands for its unbounded integer, or both fail alike. -/
def IsExact (e : Expression) : Prop :=
  Outcome.Agree Value.StandsFor (e.eval reg st m named pk) (exactAt reg st m named pk e)

/-- An expression takes the magnitude of the least integer on a row. -/
def TakesLeast (e : Expression) : Prop :=
  ∃ name args rest, e = .call name args ∧ upperText name = "ABS" ∧
    evalArgs reg st m args named pk = .ok (.int Int64.minValue :: rest)

/-- No part of an expression that is evaluated on a row takes the magnitude of the least integer. -/
def Spared (e : Expression) : Prop := ∀ d, Parts reg st m named pk e d → ¬ TakesLeast reg st m named pk d

end Row

variable {reg : Registry} {st : Store} {m : Model} {named : Named} {pk : Value} {e d : Expression}

theorem eval_choose (whens : List (Condition × Expression)) (otherwise : Option Expression) :
    (choose whens otherwise).eval reg st m named pk = (do
      match ← branch (holdsAt reg st m named pk) otherwise whens with
      | some e => e.eval reg st m named pk
      | none => return .null) := by
  rw [eval]
  induction whens with
  | nil => cases otherwise <;> rfl
  | cons w rest ih =>
      obtain ⟨q, e⟩ := w
      simp only [evalWhens, branch, holdsAt]
      rcases q.holds (Store.columnValues reg st m named pk) with f | b
      · rfl
      · cases b with
        | false => exact ih
        | true => simp only [if_true, Outcome.ok_bind, bind_assoc, pure_bind, bind_pure]

theorem exactAt_choose (whens : List (Condition × Expression)) (otherwise : Option Expression) :
    exactAt reg st m named pk (choose whens otherwise) = (do
      match ← branch (holdsAt reg st m named pk) otherwise whens with
      | some e => exactAt reg st m named pk e
      | none => return none) := by
  rw [exactAt, exact]
  induction whens with
  | nil => cases otherwise <;> rfl
  | cons w rest ih =>
      obtain ⟨q, e⟩ := w
      simp only [exactWhens, branch]
      rcases holdsAt reg st m named pk q with f | b
      · rfl
      · cases b with
        | false => exact ih
        | true =>
            simp only [if_true, Outcome.ok_bind, bind_assoc, pure_bind, bind_pure]
            rfl

/-- Arguments agree if each does that comes to be evaluated. -/
theorem args_agree {args : List Expression}
    (h : ∀ before e after vs, args = before ++ e :: after → evalArgs reg st m before named pk = .ok vs →
      IsExact reg st m named pk e) :
    Outcome.Agree (List.Forall₂ Value.StandsFor) (evalArgs reg st m args named pk)
      (exactArgs (fun path => (Store.columnValue reg st m named pk path).map Value.whole?) (holdsAt reg st m named pk)
        args) := by
  induction args with
  | nil => exact .ok .nil
  | cons e rest ih =>
      have hfirst := h [] e rest [] rfl rfl
      rw [evalArgs, exactArgs]
      refine hfirst.and_eq.bind fun v x hvalue => ?_
      obtain ⟨hv, heval, -⟩ := hvalue
      refine (ih fun before d after vs hrest hvs => ?_).bind fun vs xs hvs => .ok (.cons hv hvs)
      refine h (e :: before) d after (v :: vs) (congrArg (e :: ·) hrest) ?_
      simp only [evalArgs, heval, hvs, Outcome.ok_bind]
      rfl

/-- The branch that is taken is one of the choice. -/
theorem mem_of_branch {holds : Condition → Outcome Bool} {whens : List (Condition × Expression)}
    {otherwise : Option Expression} (h : branch holds otherwise whens = .ok (some e)) :
    (∃ w ∈ whens, w.2 = e) ∨ e ∈ otherwise := by
  induction whens with
  | nil =>
      cases h
      exact .inr rfl
  | cons w rest ih =>
      obtain ⟨q, d⟩ := w
      rw [branch] at h
      obtain ⟨b, _, h⟩ := Outcome.bind_eq_ok.mp h
      cases b with
      | false => exact (ih h).imp_left fun ⟨w, hw, he⟩ => ⟨w, List.mem_cons_of_mem _ hw, he⟩
      | true =>
          cases h
          exact .inl ⟨_, List.mem_cons_self, rfl⟩

theorem Asks.mem_args {name : String} {args : List Expression} (h : Asks reg st m named pk (call name args) e) :
    e ∈ args := by
  cases h with
  | arg hargs _ =>
      rw [hargs]
      exact List.mem_append_right _ List.mem_cons_self

/-- The parts of an expression of integers are such expressions. -/
theorem Integral.of_asks (he : e.Integral) (h : Asks reg st m named pk e d) : d.Integral := by
  cases he with
  | column path => cases h
  | int n => cases h
  | null => cases h
  | arith hop left right =>
      cases h with
      | left => exact left
      | right _ => exact right
  | call hname hargs => exact hargs d h.mem_args
  | choose hwhens hotherwise =>
      cases h with
      | branch h =>
          rcases mem_of_branch h with ⟨w, hw, rfl⟩ | hlast
          · exact hwhens w hw
          · exact hotherwise d hlast

theorem Integral.of_parts (he : e.Integral) (h : Parts reg st m named pk e d) : d.Integral := by
  induction h with
  | refl => exact he
  | tail _ hasks ih => exact ih.of_asks hasks

theorem Spared.part (he : Spared reg st m named pk e) (h : Parts reg st m named pk e d) :
    Spared reg st m named pk d := fun d' hd' => he d' (h.trans hd')

theorem Spared.asks (he : Spared reg st m named pk e) (h : Asks reg st m named pk e d) :
    Spared reg st m named pk d := he.part (.single h)

/-- Where no part takes the magnitude of the least integer, the value of an expression of integers is exact. -/
theorem isExact_of_spared (hst : st.Integral) (hpk : pk ∈ st.keys m)
    (hnamed : ∀ name value, named name = some value → ∀ v, value pk = .ok v → v.isIntegral) (he : e.Integral)
    (hspared : Spared reg st m named pk e) : IsExact reg st m named pk e := by
  induction he with
  | column path =>
      have hvalue : (Store.columnValue reg st m named pk path).Meets _ _ := hst.columnValue hpk hnamed path
      simp only [IsExact, eval, exactAt, exact]
      cases hread : Store.columnValue reg st m named pk path with
      | error f => exact .error f
      | ok v =>
          rw [hread] at hvalue
          exact .ok (Value.standsFor_whole? hvalue)
  | int n => exact .ok (.int n)
  | null => exact .ok .null
  | arith hop _ _ left right =>
      have hleft := left (hspared.asks .left)
      rw [IsExact, eval, exactAt, exact]
      refine hleft.and_eq.bind fun v x hvalue => ?_
      obtain ⟨hv, heval, -⟩ := hvalue
      have hright := right (hspared.asks (.right heval))
      exact hright.bind fun w y hw => Scalar.arith_agree hop hv hw
  | @call name args hname _ hargs =>
      have hagree : Outcome.Agree _ (evalArgs reg st m args named pk) _ :=
        args_agree fun before e after vs hsplit hvs =>
          have hasks := Asks.arg hsplit hvs
          hargs e hasks.mem_args (hspared.asks hasks)
      have hself := hspared _ .refl
      rw [IsExact, eval, exactAt, exact]
      refine hagree.and_eq.bind fun vs xs h => ?_
      obtain ⟨hall, hvs, -⟩ := h
      refine Scalar.call_agree hname hall fun habs hleast => ?_
      obtain ⟨rest, rfl⟩ : ∃ rest, vs = .int Int64.minValue :: rest := List.head?_eq_some_iff.mp hleast
      exact hself ⟨name, args, rest, rfl, habs, hvs⟩
  | choose _ _ hwhens hotherwise =>
      rw [IsExact, eval_choose, exactAt_choose]
      refine Outcome.Agree.bind_self fun taken htaken => ?_
      cases taken with
      | none => exact .ok .null
      | some e =>
          have hparts := hspared.asks (.branch htaken)
          rcases mem_of_branch htaken with ⟨w, hw, rfl⟩ | hlast
          · exact hwhens w hw hparts
          · exact hotherwise e hlast hparts

/-- The magnitude of the least integer is not exact, as that is no magnitude. -/
theorem not_isExact_of_takesLeast (h : TakesLeast reg st m named pk e) : ¬ IsExact reg st m named pk e := by
  obtain ⟨name, args, rest, rfl, habs, hargs⟩ := h
  intro hexact
  have hvalue : (call name args).eval reg st m named pk = .ok (.int Int64.minValue) := by
    rw [eval]
    show (evalArgs reg st m args named pk >>= Scalar.call name) = _
    rw [hargs, Outcome.ok_bind, Scalar.call_abs habs]
    rfl
  obtain ⟨x, hx, hstands⟩ := hexact.eq_ok hvalue
  rw [exactAt, exact] at hx
  obtain ⟨xs, -, hx⟩ := Outcome.bind_eq_ok.mp hx
  rw [Scalar.exactCall_abs habs] at hx
  cases hstands
  obtain ⟨n, -, hn⟩ := Option.map_eq_some_iff.mp (Except.ok.inj hx)
  have hnegative : Int64.minValue.toInt < 0 := by decide
  omega

/-! ## Failures -/

theorem mem_argColumns {args : List Expression} (he : e ∈ args) {p : String} (hp : p ∈ e.columns) :
    p ∈ argColumns args := by
  induction args with
  | nil => cases he
  | cons d rest ih =>
      rw [argColumns, List.mem_append]
      rcases List.mem_cons.mp he with rfl | hrest
      · exact .inl hp
      · exact .inr (ih hrest)

theorem mem_whenColumns {whens : List (Condition × Expression)} {w : Condition × Expression} (hw : w ∈ whens)
    {p : String} (hp : p ∈ w.1.paths ++ w.2.columns) : p ∈ whenColumns whens := by
  induction whens with
  | nil => cases hw
  | cons d rest ih =>
      rw [whenColumns, List.mem_append]
      rcases List.mem_cons.mp hw with rfl | hrest
      · exact .inl hp
      · exact .inr (ih hrest)

theorem args_meet {P : Failure → Prop} {Q : Value → Prop} {args : List Expression}
    (h : ∀ e ∈ args, (e.eval reg st m named pk).Meets Q P) :
    (evalArgs reg st m args named pk).Meets (fun vs => ∀ v ∈ vs, Q v) P := by
  induction args with
  | nil => exact List.forall_mem_nil Q
  | cons e rest ih =>
      obtain ⟨hfirst, hrest⟩ := List.forall_mem_cons.mp h
      rw [evalArgs]
      exact hfirst.bind fun v hv => (ih hrest).bind fun vs hvs => List.forall_mem_cons.mpr ⟨hv, hvs⟩

/-- A choice fails only as the reading of the paths of its conditions does. -/
theorem branch_meets {P : Failure → Prop} {whens : List (Condition × Expression)} (otherwise : Option Expression)
    (h : ∀ w ∈ whens, ∀ p ∈ w.1.paths, (Store.columnValues reg st m named pk p).Meets (fun _ => True) P) :
    (branch (holdsAt reg st m named pk) otherwise whens).Meets (fun _ => True) P := by
  induction whens with
  | nil => exact trivial
  | cons w rest ih =>
      obtain ⟨hfirst, hrest⟩ := List.forall_mem_cons.mp h
      rw [branch]
      refine (Condition.holds_meets hfirst : (holdsAt reg st m named pk w.1).Meets _ P).bind fun b _ => ?_
      cases b with
      | true => exact trivial
      | false => exact ih hrest

/-- The value of an expression of integers is a number or null, and it fails only as the reading of one of its columns
does. -/
theorem eval_meets {P : Failure → Prop} (hst : st.Integral) (hpk : pk ∈ st.keys m)
    (hnamed : ∀ name value, named name = some value → ∀ v, value pk = .ok v → v.isIntegral) (he : e.Integral)
    (hcolumns : ∀ p ∈ e.columns, (Store.columnValues reg st m named pk p).Meets (fun _ => True) P) :
    (e.eval reg st m named pk).Meets (fun v => ∃ x, v.StandsFor x) P := by
  induction he with
  | column path =>
      have hvalue : (Store.columnValue reg st m named pk path).Meets _ _ := hst.columnValue hpk hnamed path
      have hfails : (Store.columnValue reg st m named pk path).Meets (fun _ => True) P :=
        (hcolumns path List.mem_cons_self).bind fun _ _ => trivial
      simp only [eval]
      cases hread : Store.columnValue reg st m named pk path with
      | error f =>
          rw [hread] at hfails
          exact hfails
      | ok v =>
          rw [hread] at hvalue
          exact ⟨_, Value.standsFor_whole? hvalue⟩
  | int n => exact ⟨_, .int n⟩
  | null => exact ⟨_, .null⟩
  | arith hop _ _ left right =>
      rw [columns] at hcolumns
      have hleft := left fun p hp => hcolumns p (List.mem_append_left _ hp)
      have hright := right fun p hp => hcolumns p (List.mem_append_right _ hp)
      rw [eval]
      refine hleft.bind fun v hv => hright.bind fun w hw => ?_
      obtain ⟨x, hx⟩ := hv
      obtain ⟨y, hy⟩ := hw
      exact (Scalar.arith_agree hop hx hy).meets
  | @call name args hname _ hargs =>
      have hall := args_meet fun e h => hargs e h fun p hp => hcolumns p (mem_argColumns h hp)
      rw [eval]
      refine hall.bind fun vs hvs => ?_
      obtain ⟨u, hu, hx⟩ := Scalar.exists_call hname hvs
      rw [hu]
      exact hx
  | @choose whens otherwise _ _ hwhens hotherwise =>
      rw [columns] at hcolumns
      have hbranch : (branch (holdsAt reg st m named pk) otherwise whens).Meets (fun _ => True) P :=
        branch_meets otherwise fun w hw p hp =>
          hcolumns p (List.mem_append_left _ (mem_whenColumns hw (List.mem_append_left _ hp)))
      rw [eval_choose]
      refine hbranch.self.bind fun taken htaken => ?_
      cases taken with
      | none => exact ⟨_, .null⟩
      | some e =>
          rcases mem_of_branch htaken with ⟨w, hw, rfl⟩ | hlast
          · exact hwhens w hw fun p hp =>
              hcolumns p (List.mem_append_left _ (mem_whenColumns hw (List.mem_append_right _ hp)))
          · obtain rfl := Option.mem_def.mp hlast
            exact hotherwise e rfl fun p hp => hcolumns p (List.mem_append_right _ hp)

/-- Expressions of integers on the rows of stores of integers. All parts of one that are evaluated stand for what they
are over the unbounded integers, or fail alike, just if none takes the magnitude of the least integer; then an integer
that it comes to is the unbounded one. In any case it fails only as the reading of one of its columns does. -/
theorem eval_exact (hst : st.Integral) (hpk : pk ∈ st.keys m)
    (hnamed : ∀ name value, named name = some value → ∀ v, value pk = .ok v → v.isIntegral) (he : e.Integral) :
    ((∀ d, Parts reg st m named pk e d → IsExact reg st m named pk d) ↔ Spared reg st m named pk e) ∧
    (Spared reg st m named pk e →
      ∀ n, e.eval reg st m named pk = .ok (.int n) → exactAt reg st m named pk e = .ok (some n.toInt)) ∧
    ∀ f, e.eval reg st m named pk = .error f →
      ∃ path ∈ e.columns, Store.columnValues reg st m named pk path = .error f := by
  refine ⟨⟨fun hexact d hd hleast => not_isExact_of_takesLeast hleast (hexact d hd), fun hspared d hd => ?_⟩,
    fun hspared n hn => ?_, fun f hf => ?_⟩
  · exact isExact_of_spared hst hpk hnamed (he.of_parts hd) (hspared.part hd)
  · obtain ⟨x, hx, hstands⟩ := (isExact_of_spared hst hpk hnamed he hspared).eq_ok hn
    cases hstands
    exact hx
  · have hfails : (e.eval reg st m named pk).Meets (fun v => ∃ x, v.StandsFor x)
        fun f => ∃ path ∈ e.columns, Store.columnValues reg st m named pk path = .error f := by
      refine eval_meets hst hpk hnamed he fun path hpath => ?_
      cases hread : Store.columnValues reg st m named pk path with
      | ok vs => exact trivial
      | error f => exact ⟨path, hpath, hread⟩
    rw [hf] at hfails
    exact hfails

end Expression

/-! ## Gauges -/

namespace Gauges

open Expression

/-- A gauge with a number. -/
def gauge : Model :=
  { name := "gauge", parent := none, pkName := "id", own := [.autoKey "id", { name := "n", type := .integer }],
    reverse := [] }

/-- A gauge at the least number and one above it. -/
def gauges : Store :=
  ⟨[("gauge", ⟨[(.int 1, [("id", .int 1), ("n", .int Int64.minValue)]),
    (.int 2, [("id", .int 2), ("n", .int (-9223372036854775807))])], 2⟩)]⟩

/-- The magnitude of the number of a gauge. -/
def reading : Expression := .call "ABS" [.column "n"]

theorem integral_reading : reading.Integral := .call rfl (List.forall_mem_singleton.mpr (.column "n"))

/-- One above the least number the reading is exact. -/
theorem reading_exact :
    (gauges.Integral ∧ Value.int 2 ∈ gauges.keys gauge ∧ reading.Integral) ∧
      exactAt ⟨[gauge]⟩ gauges gauge (fun _ => none) (.int 2) reading = .ok (some 9223372036854775807) := by
  have hst : gauges.Integral := by decide
  have hpk : Value.int 2 ∈ gauges.keys gauge := by decide
  have hnamed : ∀ name value, (fun _ => none : Named) name = some value → ∀ v, value (.int 2) = .ok v → v.isIntegral :=
    nofun
  have hargs : evalArgs ⟨[gauge]⟩ gauges gauge [.column "n"] (fun _ => none) (.int 2) =
      .ok [.int (-9223372036854775807)] := rfl
  have hspared : Spared ⟨[gauge]⟩ gauges gauge (fun _ => none) (.int 2) reading := by
    rintro d hd ⟨name, args, rest, rfl, -, hleast⟩
    rcases hd.cases_head with h | ⟨part, hpart, hd⟩
    · cases h
      rw [hargs] at hleast
      have hfirst := Value.int.inj (List.cons.inj (Except.ok.inj hleast)).1
      exact absurd hfirst (by decide)
    · obtain rfl := List.mem_singleton.mp hpart.mem_args
      rcases hd.cases_head with h | ⟨_, hnone, _⟩
      · cases h
      · cases hnone
  have hvalue : reading.eval ⟨[gauge]⟩ gauges gauge (fun _ => none) (.int 2) = .ok (.int Int64.maxValue) := rfl
  exact ⟨⟨hst, hpk, integral_reading⟩, (eval_exact hst hpk hnamed integral_reading).2.1 hspared _ hvalue⟩

/-- The reading of the gauge at the least number is that number, and not its magnitude. -/
theorem reading_least :
    gauges.Integral ∧ Value.int 1 ∈ gauges.keys gauge ∧ reading.Integral ∧
      reading.eval ⟨[gauge]⟩ gauges gauge (fun _ => none) (.int 1) = .ok (.int Int64.minValue) ∧
      exactAt ⟨[gauge]⟩ gauges gauge (fun _ => none) (.int 1) reading = .ok (some 9223372036854775808) :=
  ⟨by decide, by decide, integral_reading, rfl, rfl⟩

end Gauges

end RecordMapper
