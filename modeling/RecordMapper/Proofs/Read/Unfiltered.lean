import RecordMapper.Store.Fetch
import RecordMapper.Proofs.Read.Correlated
import RecordMapper.Proofs.Store.Aggregates

/-!
# Unfiltered — detaching keeps the values of aggregates without a filter

The related rows that a detached aggregate reads are those its path
leads to, in another order, and behind the cut both read the same. So
the values it combines are a rearrangement of those of the aggregate it
replaces, and in an expression whose aggregates do not depend on the
order everything else is left as it was (`eval_detach_of_build`).
-/

namespace RecordMapper

open RecordMapper.Store
open scoped List

/-! ## One aggregate -/

namespace Registry

variable {reg : Registry} {st : Store} {m : Model} {func : Aggregate} {path : String} {distinct : Bool}
  {e' : Expression} {named : Named} {pk : Value}

theorem eval_detachAggregate (hn : Navigable reg) (hs : Consistent reg st) (hm : m ∈ reg.models)
    (hpk : pk ∈ st.keys m) (hpath : named path = none) (hkey : named m.pkName = none)
    (hadd : func ≠ .count → ∀ vs, pathValues reg st m pk path = .ok vs → Scalar.Addable (given vs))
    (h : reg.detachAggregate m func (.column path) distinct none = .ok e') :
    e'.eval reg st m named pk =
      (Expression.aggregate func (.column path) distinct none).eval reg st m named pk := by
  obtain ⟨p, hp, ⟨_, rfl⟩ | ⟨before, s, behind, target, link, _, hcut, hlink, rfl⟩⟩ :=
    detachAggregate_eq_ok hn hm h
  · rfl
  · have ht := hcut.leads.mem_models hm
    obtain ⟨back, hback, hne, rfl, hiff⟩ := exists_back hn hs.intact hm hcut.leads hlink
    have hperm := trail_perm_reaching hn hs hm hcut.leads hcut.single hpk (hiff pk hpk)
    obtain ⟨q, hq, htrail, _⟩ := exists_inner hn hs.intact ht hcut.route
    -- What the aggregate finds itself.
    obtain ⟨vs, hvs, hgiven⟩ := aggregated_column hn hs hm hpk hp hpath
    -- What the detached one finds in a related row.
    have hrow : ∀ b ∈ (st.keys target).filter fun b => pk ∈ trail reg st back b, ∃ us,
        aggregated reg st target (fun _ => none) (.column (innerPath target behind))
          (fun b => columnValue reg st target (fun _ => none) b (innerPath target behind)) none b = .ok us ∧
        given us = given (trail reg st behind b) := by
      intro b hb
      have hbk := (List.mem_filter.mp hb).1
      rw [← htrail b hbk]
      exact aggregated_column hn hs ht hbk hq rfl
    obtain ⟨uss, huss, hrows⟩ := Outcome.exists_mapM hrow
    -- Row for row the same is found, only the rows come in another order.
    have hall : given vs ~ given uss.flatten := by
      rw [hgiven, given_flatten hrows, hcut.steps, trail_append (before ++ [s]) behind, ← given_flatMap_trail]
      exact (hperm.flatMap_right _).filter _
    have hsum : func ≠ .count → Scalar.Addable (given vs) := by
      intro hfunc
      rw [hgiven]
      exact hadd hfunc _ (pathValues_eq hn hs hm hpk hp)
    rw [eval_correlated hn hs hm hback hne ht hpk hkey, Expression.eval]
    simp only [Expression.eval, innerFilter, Option.map_none, huss, hvs, Outcome.ok_bind]
    exact (Scalar.aggregate_perm hall hsum distinct).symm

/-- What stays of a detached aggregate is over a path without to-many relations. -/
theorem aggregatesMany_detachAggregate {filter : Option Condition} (hn : Navigable reg) (hm : m ∈ reg.models)
    (h : reg.detachAggregate m func (.column path) distinct filter = .ok e') :
    reg.aggregatesMany m e' = false := by
  obtain ⟨p, hp, ⟨hnone, rfl⟩ | ⟨_, _, _, _, _, _, _, _, rfl⟩⟩ := detachAggregate_eq_ok hn hm h
  · have hsingle := cutAtFirstMany?_eq_none hnone
    have hall : p.isSingle = true := List.all_eq_true.mpr fun s hs => by rw [hsingle s hs]; rfl
    simp [aggregatesMany, Expression.columns, hp, hall]
  · rw [correlated, aggregatesMany]

end Registry

/-! ## Every aggregate of an expression -/

namespace Expression

mutual

/-- Whether something holds of every aggregate outside subqueries and conditions. -/
def EachAggregate (P : Aggregate → Expression → Option Condition → Prop) : Expression → Prop
  | .column _ => True
  | .literal _ => True
  | .call _ args => EachInArgs P args
  | .aggregate func of _ filter => P func of filter
  | .choose whens otherwise => EachInWhens P whens ∧ EachInOtherwise P otherwise
  | .subquery .. => True
  | .arith _ l r => EachAggregate P l ∧ EachAggregate P r

/-- Whether it holds in each of several expressions. -/
def EachInArgs (P : Aggregate → Expression → Option Condition → Prop) : List Expression → Prop
  | [] => True
  | e :: rest => EachAggregate P e ∧ EachInArgs P rest

/-- Whether it holds in each of several branches. -/
def EachInWhens (P : Aggregate → Expression → Option Condition → Prop) : List (Condition × Expression) → Prop
  | [] => True
  | (_, e) :: rest => EachAggregate P e ∧ EachInWhens P rest

/-- Whether it holds in the last branch. -/
def EachInOtherwise (P : Aggregate → Expression → Option Condition → Prop) : Option Expression → Prop
  | none => True
  | some e => EachAggregate P e

end

end Expression

namespace Registry

variable {reg : Registry} {st : Store} {m : Model} {named : Named} {pk : Value}
  {P : Aggregate → Expression → Option Condition → Prop}

/-- Detaching keeps the value of those aggregates that have a property. -/
def KeepsAggregates (reg : Registry) (st : Store) (m : Model) (named : Named) (pk : Value)
    (P : Aggregate → Expression → Option Condition → Prop) : Prop :=
  ∀ func of distinct filter e', P func of filter → reg.detachAggregate m func of distinct filter = .ok e' →
    e'.eval reg st m named pk = (Expression.aggregate func of distinct filter).eval reg st m named pk ∧
      reg.aggregatesMany m e' = false

open Expression

mutual

/-- Detaching keeps the value of an expression if it keeps those of its aggregates, and what it leaves
collects from no to-many relation. -/
theorem eval_detach (hk : KeepsAggregates reg st m named pk P) : ∀ {e e' : Expression},
    e.EachAggregate P → reg.detach m e = .ok e' →
      e'.eval reg st m named pk = e.eval reg st m named pk ∧ reg.aggregatesMany m e' = false
  | .column _, _, _, h => by
      cases h
      exact ⟨rfl, rfl⟩
  | .literal _, _, _, h => by
      cases h
      exact ⟨rfl, rfl⟩
  | .call name args, e', hall, h => by
      rw [detach] at h
      obtain ⟨args', hargs, rfl⟩ := Outcome.map_eq_ok.mp h
      obtain ⟨heval, hmany⟩ := evalArgs_detachAll hk hall hargs
      refine ⟨?_, ?_⟩
      · simp only [eval, heval]
      · rw [aggregatesMany, hmany]
  | .aggregate func of distinct filter, e', hall, h => by
      rw [detach] at h
      exact hk func of distinct filter e' hall h
  | .choose whens otherwise, e', hall, h => by
      rw [detach] at h
      obtain ⟨whens', hwhens, h⟩ := Outcome.bind_eq_ok.mp h
      obtain ⟨otherwise', hotherwise, h⟩ := Outcome.bind_eq_ok.mp h
      cases h
      obtain ⟨heval, hmany⟩ := evalWhens_detachWhens hk hall.1 hwhens
      obtain ⟨heval', hmany'⟩ := evalOtherwise_detachOtherwise hk hall.2 hotherwise
      refine ⟨?_, ?_⟩
      · simp only [eval, heval, heval']
      · rw [aggregatesMany, hmany, hmany']
        rfl
  | .subquery .., _, _, h => by
      cases h
      exact ⟨rfl, rfl⟩
  | .arith op l r, e', hall, h => by
      rw [detach] at h
      obtain ⟨l', hl, h⟩ := Outcome.bind_eq_ok.mp h
      obtain ⟨r', hr, h⟩ := Outcome.bind_eq_ok.mp h
      cases h
      obtain ⟨heval, hmany⟩ := eval_detach hk hall.1 hl
      obtain ⟨heval', hmany'⟩ := eval_detach hk hall.2 hr
      refine ⟨?_, ?_⟩
      · simp only [eval, heval, heval']
      · rw [aggregatesMany, hmany, hmany']
        rfl

/-- Argument by argument. -/
theorem evalArgs_detachAll (hk : KeepsAggregates reg st m named pk P) : ∀ {args args' : List Expression},
    EachInArgs P args → reg.detachAll m args = .ok args' →
      evalArgs reg st m args' named pk = evalArgs reg st m args named pk ∧
        reg.argsAggregateMany m args' = false
  | [], _, _, h => by
      cases h
      exact ⟨rfl, rfl⟩
  | e :: rest, args', hall, h => by
      rw [detachAll] at h
      obtain ⟨e', he, h⟩ := Outcome.bind_eq_ok.mp h
      obtain ⟨rest', hrest, h⟩ := Outcome.bind_eq_ok.mp h
      cases h
      obtain ⟨heval, hmany⟩ := eval_detach hk hall.1 he
      obtain ⟨heval', hmany'⟩ := evalArgs_detachAll hk hall.2 hrest
      refine ⟨?_, ?_⟩
      · simp only [evalArgs, heval, heval']
      · rw [argsAggregateMany, hmany, hmany']
        rfl

/-- Branch by branch. -/
theorem evalWhens_detachWhens (hk : KeepsAggregates reg st m named pk P) :
    ∀ {whens whens' : List (Condition × Expression)},
      EachInWhens P whens → reg.detachWhens m whens = .ok whens' →
        evalWhens reg st m whens' named pk = evalWhens reg st m whens named pk ∧
          reg.whensAggregateMany m whens' = false
  | [], _, _, h => by
      cases h
      exact ⟨rfl, rfl⟩
  | (q, e) :: rest, whens', hall, h => by
      rw [detachWhens] at h
      obtain ⟨e', he, h⟩ := Outcome.bind_eq_ok.mp h
      obtain ⟨rest', hrest, h⟩ := Outcome.bind_eq_ok.mp h
      cases h
      obtain ⟨heval, hmany⟩ := eval_detach hk hall.1 he
      obtain ⟨heval', hmany'⟩ := evalWhens_detachWhens hk hall.2 hrest
      refine ⟨?_, ?_⟩
      · simp only [evalWhens, heval, heval']
      · rw [whensAggregateMany, hmany, hmany']
        rfl

/-- The last branch. -/
theorem evalOtherwise_detachOtherwise (hk : KeepsAggregates reg st m named pk P) :
    ∀ {otherwise otherwise' : Option Expression},
      EachInOtherwise P otherwise → reg.detachOtherwise m otherwise = .ok otherwise' →
        evalOtherwise reg st m otherwise' named pk = evalOtherwise reg st m otherwise named pk ∧
          reg.otherwiseAggregatesMany m otherwise' = false
  | none, _, _, h => by
      cases h
      exact ⟨rfl, rfl⟩
  | some e, otherwise', hall, h => by
      rw [detachOtherwise] at h
      obtain ⟨e', he, rfl⟩ := Outcome.map_eq_ok.mp h
      exact eval_detach hk hall he

end

/-- An aggregate over a path without a filter. Unless it counts, the values of the path on a row are
integers whose magnitudes add up to less than 2^63, or null. -/
def Rearrangeable (reg : Registry) (st : Store) (m : Model) (pk : Value) (func : Aggregate) (of : Expression)
    (filter : Option Condition) : Prop :=
  filter = none ∧ ∃ path, of = .column path ∧
    (func ≠ .count → ∀ vs, pathValues reg st m pk path = .ok vs → Scalar.Addable (given vs))

theorem keepsAggregates_rearrangeable (hn : Navigable reg) (hs : Consistent reg st) (hm : m ∈ reg.models)
    (hpk : pk ∈ st.keys m) : KeepsAggregates reg st m (fun _ => none) pk (Rearrangeable reg st m pk) := by
  rintro func _ distinct _ e' ⟨rfl, path, rfl, hadd⟩ h
  exact ⟨eval_detachAggregate hn hs hm hpk rfl rfl hadd h, aggregatesMany_detachAggregate hn hm h⟩

/-- Detaching keeps the value of an expression without filters on every row, and no aggregate over a
to-many path is left. -/
theorem eval_detach_of_build {decls : List ModelDecl} (hb : Registry.build decls = .ok reg)
    (hl : Legible reg) (hk : KeysAreColumns reg) (hd : SidesAreDeclared reg) (hs : Consistent reg st)
    (hm : m ∈ reg.models) (hpk : pk ∈ st.keys m) {e e' : Expression}
    (he : e.EachAggregate (Rearrangeable reg st m pk)) (h : reg.detach m e = .ok e') :
    e'.eval reg st m (fun _ => none) pk = e.eval reg st m (fun _ => none) pk ∧
      reg.aggregatesMany m e' = false :=
  eval_detach (keepsAggregates_rearrangeable (navigable_of_build hb hl hk hd) hs hm hpk) he h

/-! ## Writers and what they wrote -/

/-- The registry of declarations that can be built. -/
def built (decls : List ModelDecl) : Registry :=
  match Registry.build decls with
  | .ok reg => reg
  | .error _ => ⟨[]⟩

/-- A registered model. -/
def modelOf (reg : Registry) (name : String) : Model := (reg.find? name).getD default

/-- What an expression is detached to. -/
def detached (reg : Registry) (m : Model) (e : Expression) : Expression :=
  match reg.detach m e with
  | .ok e' => e'
  | .error _ => e

/-- A table of rows under integers. -/
def tableOf (rows : List (Int64 × Record)) : Table := ⟨rows.map fun row => (.int row.1, row.2), 0⟩

def writers : List ModelDecl :=
  [{ name := "author", fields := [.autoKey "id"] },
    { name := "article"
      fields :=
      [.autoKey "id",
        { name := "author", type := .foreignKey "author" (some "articles"), null := true },
        .of "words" .integer] }]

def author : Model := modelOf (built writers) "author"

def writings : Store :=
  ⟨[("author", tableOf [(1, []), (2, [])]),
    ("article", tableOf
      [(1, [("author", .int 1), ("words", .int 300)]),
        (2, [("author", .int 1), ("words", .int 500)]),
        (3, [("author", .null), ("words", .int 40)])])]⟩

/-- The number of an author's articles and of their words. -/
def output : Expression :=
  .arith .add (.aggregateOf .count (.column "articles")) (.aggregateOf .sum (.column "articles.words"))

theorem build_writers : Registry.build writers = .ok (built writers) := rfl

theorem detach_output :
    (built writers).detach author output = .ok (detached (built writers) author output) := rfl

theorem writings_consistent : Consistent (built writers) writings := by decide

theorem output_rearrangeable :
    output.EachAggregate (Rearrangeable (built writers) writings author (.int 1)) := by
  refine ⟨⟨rfl, _, rfl, fun h => absurd rfl h⟩, rfl, _, rfl, fun _ vs h => ?_⟩
  obtain rfl : [.int 300, .int 500] = vs := Except.ok.inj h
  exact ⟨by decide, by decide⟩

theorem eval_detached_output :
    (Legible (built writers) ∧ KeysAreColumns (built writers) ∧ SidesAreDeclared (built writers) ∧
      Consistent (built writers) writings ∧ author ∈ (built writers).models ∧
      .int 1 ∈ writings.keys author) ∧
    output.eval (built writers) writings author (fun _ => none) (.int 1) = .ok (.int 802) ∧
    (detached (built writers) author output).eval (built writers) writings author (fun _ => none) (.int 1) =
      output.eval (built writers) writings author (fun _ => none) (.int 1) := by
  have hl : Legible (built writers) := by decide
  have hk : KeysAreColumns (built writers) := by decide
  have hd : SidesAreDeclared (built writers) := sidesAreDeclared_of_forward (by decide)
  have hm : author ∈ (built writers).models := by decide
  have hpk : .int 1 ∈ writings.keys author := by decide
  have hkept := eval_detach_of_build build_writers hl hk hd writings_consistent hm hpk output_rearrangeable
    detach_output
  exact ⟨⟨hl, hk, hd, writings_consistent, hm, hpk⟩, rfl, hkept.1⟩

/-! ## What the conditions rule out -/

/-- The rows of `t` have the rows they are linked to for keys. -/
def keyedByLinks : List ModelDecl :=
  [{ name := "a", fields := [.autoKey "id"] },
    { name := "l"
      fields := [.autoKey "id", .of "t" (.foreignKey "t" none), .of "a" (.foreignKey "a" none)] },
    { name := "t"
      fields :=
      [(Field.of "links" (.manyToMany "a" "l" "t" "a" none)).asPrimaryKey,
        .of "owner" (.foreignKey "a" (some "ts"))] }]

def keyedByLinksRows : Store := ⟨[("a", tableOf [(1, [])]), ("t", tableOf [(7, [("owner", .int 1)])])]⟩

/-- `a` declares the other side of a relation that `b` does not have. -/
def oneSided : List ModelDecl :=
  [{ name := "a", fields := [.autoKey "id", .of "bs" (.reverseForeignKey "b" "a")] },
    { name := "b", fields := [.autoKey "id"] }]

def oneSidedRows : Store := ⟨[("a", tableOf [(1, [])]), ("b", tableOf [(1, [])])]⟩

/-- Two rows of `b` hold one key in a one-to-one column, and both are linked to one row of `c`. -/
def doubled : List ModelDecl :=
  [{ name := "a", fields := [.autoKey "id"] },
    { name := "b"
      fields :=
      [.autoKey "id",
        .of "a" (.oneToOne "a" (some "b")),
        .of "cs" (.manyToMany "c" "l" "b" "c" (some "bs"))] },
    { name := "c", fields := [.autoKey "id"] },
    { name := "l"
      fields := [.autoKey "id", .of "b" (.foreignKey "b" none), .of "c" (.foreignKey "c" none)] }]

def doubledRows : Store :=
  ⟨[("a", tableOf [(1, [])]),
    ("b", tableOf [(1, [("a", .int 1)]), (2, [("a", .int 1)])]),
    ("c", tableOf [(1, [])]),
    ("l", tableOf [(1, [("b", .int 1), ("c", .int 1)]), (2, [("b", .int 2), ("c", .int 1)])])]⟩

/-- Detaching the count over a path from `a` changes its value on the row under 1. -/
def Miscounts (reg : Registry) (st : Store) (path : String) (n : Int64) : Prop :=
  let m := modelOf reg "a"
  let e := Expression.aggregateOf .count (.column path)
  m ∈ reg.models ∧ .int 1 ∈ st.keys m ∧ reg.detach m e = .ok (detached reg m e) ∧
    e.eval reg st m (fun _ => none) (.int 1) = .ok (.int n) ∧
    ((detached reg m e).eval reg st m (fun _ => none) (.int 1)).toOption ≠ some (.int n)

/-- Keys that are no columns, other sides of nothing and one-to-one columns with a key twice make detached
counts differ, each alone. -/
theorem detached_counts_differ :
    (Registry.build keyedByLinks = .ok (built keyedByLinks) ∧ Legible (built keyedByLinks) ∧
      SidesAreDeclared (built keyedByLinks) ∧ Consistent (built keyedByLinks) keyedByLinksRows ∧
      Miscounts (built keyedByLinks) keyedByLinksRows "ts" 1) ∧
    (Registry.build oneSided = .ok (built oneSided) ∧ Legible (built oneSided) ∧
      KeysAreColumns (built oneSided) ∧ Consistent (built oneSided) oneSidedRows ∧
      Miscounts (built oneSided) oneSidedRows "bs" 0) ∧
    Registry.build doubled = .ok (built doubled) ∧ Legible (built doubled) ∧ KeysAreColumns (built doubled) ∧
      SidesAreDeclared (built doubled) ∧ Referential (built doubled) doubledRows ∧
      Miscounts (built doubled) doubledRows "b.cs" 2 := by
  refine ⟨⟨rfl, by decide, sidesAreDeclared_of_forward (by decide), by decide, ?_⟩,
    ⟨rfl, by decide, by decide, by decide, ?_⟩,
    rfl, by decide, by decide, sidesAreDeclared_of_forward (by decide), by decide, ?_⟩
  all_goals exact ⟨by decide, by decide, rfl, rfl, by decide⟩

end Registry

end RecordMapper
