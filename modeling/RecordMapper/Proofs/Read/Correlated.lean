import Mathlib.Data.List.TakeDrop
import Mathlib.Data.List.TakeWhile
import RecordMapper.Proofs.Store.Collecting

/-!
# Correlated — the subquery an aggregate is detached to

Detaching cuts the path of an aggregate behind its first to-many
relation (`Cut`). The subquery it makes selects the rows from which the
way back leads to the outer row (`keysOf_correlated`), and from each of
them reads what stands behind the cut (`exists_inner`).
-/

namespace RecordMapper.Registry

open RecordMapper.Store
open scoped List

/-- A path cut behind its first to-many relation, which leads to `target`. -/
structure Cut (reg : Registry) (m : Model) (steps before : List PathStep) (s : PathStep)
    (behind : List PathStep) (target : Model) : Prop where
  steps : steps = before ++ [s] ++ behind
  single : ∀ s ∈ before, s.field.type.isMany = false
  many : s.field.type.isMany
  leads : Leads reg m (before ++ [s]) target
  route : Route reg target behind

/-- The path from the related rows to what is collected: the names of the steps behind the cut, the
primary key where there are none. -/
def innerPath (target : Model) (behind : List PathStep) : String :=
  if behind.isEmpty then target.pkName else ResolvedPath.joinNames behind

/-- The condition of an aggregate's filter seen from the related rows. -/
def innerFilter (target : Model) (hop : List PathStep) (filter : Option Condition) : Option Condition :=
  filter.map (·.rootedAt (ResolvedPath.joinNames hop) target.pkName)

/-- What an aggregate is detached to. -/
def correlated (m target : Model) (link : String) (func : Aggregate) (hop behind : List PathStep)
    (distinct : Bool) (filter : Option Condition) : Expression :=
  .subquery (Queryset.all target) link m.pkName
    (.aggregate func (.column (innerPath target behind)) distinct (innerFilter target hop filter))

variable {reg : Registry} {st : Store} {m target : Model} {before behind back : List PathStep} {s : PathStep}
  {p : ResolvedPath} {path : String} {func : Aggregate} {distinct : Bool} {filter : Option Condition}
  {e' : Expression} {pk a b : Value}

/-! ## Where the path is cut -/

theorem cutAtFirstMany?_eq_none (h : p.cutAtFirstMany? = none) :
    ∀ s ∈ p.steps, s.field.type.isMany = false := by
  rw [ResolvedPath.cutAtFirstMany?, List.span_eq_takeWhile_dropWhile] at h
  split at h
  · cases h
  · rename_i hspan
    have hnil := (Prod.mk.inj hspan).2
    rw [List.dropWhile_eq_nil_iff] at hnil
    exact fun s hs => by simpa using hnil s hs

theorem cutAtFirstMany?_eq_some {hop : ResolvedPath} (h : p.cutAtFirstMany? = some (hop, behind)) :
    p.steps = hop.before ++ [hop.last] ++ behind ∧ (∀ s ∈ hop.before, s.field.type.isMany = false) ∧
      hop.last.field.type.isMany := by
  rw [ResolvedPath.cutAtFirstMany?, List.span_eq_takeWhile_dropWhile] at h
  split at h
  · rename_i hspan
    cases h
    obtain ⟨rfl, hdrop⟩ := Prod.mk.inj hspan
    refine ⟨?_, fun s hs => ?_, ?_⟩
    · rw [List.append_assoc, List.singleton_append, ← hdrop, List.takeWhile_append_dropWhile]
    · simpa using List.mem_takeWhile_imp hs
    · have hne : p.steps.dropWhile (fun s => !s.field.type.isMany) ≠ [] := by
        rw [hdrop]
        exact List.cons_ne_nil _ _
      have hhead := List.head_dropWhile_not _ hne
      simp only [hdrop, List.head_cons] at hhead
      simpa using hhead
  · cases h

/-- A detached aggregate stays where no step is to-many, and is correlated where one is. -/
theorem detachAggregate_eq_ok (hn : Navigable reg) (hm : m ∈ reg.models)
    (h : reg.detachAggregate m func (.column path) distinct filter = .ok e') :
    ∃ p, reg.resolvePath m path = .ok p ∧
      (p.cutAtFirstMany? = none ∧ e' = .aggregate func (.column path) distinct filter ∨
        ∃ before s behind target link, p.cutAtFirstMany? = some (⟨before, s⟩, behind) ∧
          Cut reg m p.steps before s behind target ∧
          ResolvedPath.reversePath? ⟨before, s⟩ = some link ∧
          e' = correlated m target link func (before ++ [s]) behind distinct filter) := by
  rw [detachAggregate] at h
  obtain ⟨p, hp, h⟩ := Outcome.bind_eq_ok.mp h
  refine ⟨p, hp, ?_⟩
  split at h
  · rename_i hcut
    cases h
    exact .inl ⟨hcut, rfl⟩
  · rename_i hop behind hcut
    obtain ⟨hsteps, hsingle, hmany⟩ := cutAtFirstMany?_eq_some hcut
    have hroute := ((resolvePath_eq_ok hn hm).mp hp).1
    rw [hsteps] at hroute
    obtain ⟨target, hleads, hbehind⟩ := hroute.cut_many hn hmany
    -- A path up to a to-many relation always has a model to be correlated with.
    obtain ⟨found, hfound, h⟩ := Outcome.bind_eq_ok.mp h
    have htarget := targetModel_eq hleads
    obtain rfl : found = some target := Except.ok.inj (hfound.symm.trans htarget)
    split at h
    · rename_i target' link htarget' hlink
      cases htarget'
      cases h
      exact .inr ⟨hop.before, hop.last, behind, target, link, hcut,
        ⟨hsteps, hsingle, hmany, hleads, hbehind⟩, hlink, rfl⟩
    · cases h

/-! ## The two halves of a cut path -/

section Halves

variable (hn : Navigable reg) (hs : Intact reg st)

include hn hs

/-- A path from the related rows leads where what stands behind the cut does. -/
theorem exists_inner (ht : target ∈ reg.models) (hroute : Route reg target behind) :
    ∃ p, reg.resolvePath target (innerPath target behind) = .ok p ∧
      (∀ b ∈ st.keys target, trail reg st p.steps b = trail reg st behind b) ∧
      ((∀ s ∈ behind, s.field.type.isMany = false) → ∀ s ∈ p.steps, s.field.type.isMany = false) := by
  rcases List.eq_nil_or_concat behind with rfl | ⟨before, last, rfl⟩
  · obtain ⟨f, hresolved, hsingle, htrail⟩ := exists_pkStep st hn ht
    refine ⟨⟨[], ⟨target, f⟩⟩, hresolved, fun b hb => ?_, fun _ s hs => ?_⟩
    · exact htrail b (Value.isNull_of_isPlain (hs.plain target ht b hb))
    · rwa [List.mem_singleton.mp hs]
  · rw [List.concat_eq_append] at hroute ⊢
    have hpath : innerPath target (before ++ [last]) = ResolvedPath.joinNames (before ++ [last]) := by
      rw [innerPath, if_neg]
      simp
    refine ⟨⟨before, last⟩, ?_, fun _ _ => rfl, fun h => h⟩
    rw [hpath]
    exact resolvePath_intercalate hn ht hroute (hroute.spells hn) (hroute.not_dotted hn)

/-- The names of the way back are what the subquery is linked by. -/
theorem exists_back (hm : m ∈ reg.models) (hleads : Leads reg m (before ++ [s]) target) {link : String}
    (hlink : ResolvedPath.reversePath? ⟨before, s⟩ = some link) :
    ∃ back, Leads reg target back m ∧ back ≠ [] ∧ link = ResolvedPath.joinNames back ∧
      ∀ a ∈ st.keys m, ∀ b ∈ st.keys target,
        b ∈ trail reg st (before ++ [s]) a ↔ a ∈ trail reg st back b := by
  obtain ⟨back, hback, hlen, hnames, hiff⟩ := exists_trail_back hn hs hm hleads
  rw [ResolvedPath.reversePath?, ResolvedPath.steps, hnames] at hlink
  refine ⟨back, hback, ?_, (Option.some.inj hlink).symm, hiff⟩
  rintro rfl
  simp at hlen

end Halves

/-! ## What the subquery selects -/

theorem ofMeanings_nil : Named.ofMeanings [] = fun _ => none := rfl

section Selected

variable (hn : Navigable reg) (hs : Consistent reg st)

include hn hs

/-- A row reaches a key over a chain whose trail leads there. -/
theorem reaches_eq (ht : target ∈ reg.models) (hback : Leads reg target back m) (hne : back ≠ [])
    (hm : m ∈ reg.models) (ha : a ∈ st.keys m) (hb : b ∈ st.keys target) :
    reaches reg st target (fun _ => none) (some (ResolvedPath.joinNames back, a)) b =
      .ok (decide (a ∈ trail reg st back b)) := by
  have hplain := hs.plain m hm a ha
  have hroute : Route reg target back := List.append_nil back ▸ hback.route (.nil m)
  have hvalues : pathValues reg st target b (ResolvedPath.joinNames back) = .ok (trail reg st back b) :=
    pathValues_joinNames hn hroute hne (Value.isNull_of_isPlain (hs.plain target ht b hb))
  rw [reaches]
  simp only [Value.isNull_of_isPlain hplain, Bool.false_eq_true, if_false, columnValues, hvalues,
    Outcome.ok_bind, Outcome.pure_eq_ok]
  congr 1
  rw [Bool.eq_iff_iff, List.any_eq_true, decide_eq_true_iff]
  have heq : ∀ v ∈ trail reg st back b, (v.numEq a = true ↔ v = a) := fun v hv =>
    Value.numEq_iff_of_isPlain (isPlain_of_mem_trail hn hs.intact hback ht hb hv) hplain
  constructor
  · rintro ⟨v, hv, hva⟩
    rwa [(heq v hv).mp hva] at hv
  · intro ha
    exact ⟨a, ha, (heq a ha).mpr rfl⟩

/-- The subquery selects the rows from which the way back leads to the outer row. -/
theorem keysOf_correlated (ht : target ∈ reg.models) (hback : Leads reg target back m) (hne : back ≠ [])
    (hm : m ∈ reg.models) (ha : a ∈ st.keys m) :
    Expression.keysOf reg st (Queryset.all target) (some (ResolvedPath.joinNames back, a)) =
      .ok ((st.keys target).filter fun b => a ∈ trail reg st back b) := by
  have hpassed : (st.keys target).filterM (fun b => do
      if ← passes reg st target (fun _ => none) none b then
        reaches reg st target (fun _ => none) (some (ResolvedPath.joinNames back, a)) b
      else return false) = .ok ((st.keys target).filter fun b => a ∈ trail reg st back b) :=
    Outcome.filterM_ok fun b hb => reaches_eq hn hs ht hback hne hm ha hb
  rw [Queryset.all, Expression.keysOf]
  simp only [Bool.false_or, beq_iff_eq, reduceCtorEq, if_false]
  rw [Expression.meanings, ofMeanings_nil, selectKeys, hpassed, Expression.sortTerms]
  rfl

/-- A detached aggregate collects from the rows that the subquery selects. -/
theorem eval_correlated (hm : m ∈ reg.models) (hback : Leads reg target back m) (hne : back ≠ [])
    (ht : target ∈ reg.models) (hpk : pk ∈ st.keys m) {named : Named} (hnamed : named m.pkName = none) :
    (correlated m target (ResolvedPath.joinNames back) func before behind distinct filter).eval
        reg st m named pk = (do
      let collected ← ((st.keys target).filter fun b => pk ∈ trail reg st back b).mapM
        (aggregated reg st target (fun _ => none) (.column (innerPath target behind))
          (fun b => columnValue reg st target (fun _ => none) b (innerPath target behind))
          (innerFilter target before filter))
      Scalar.aggregate func collected.flatten distinct) := by
  -- The outer side of the subquery's link is the row itself.
  have hhere : columnValue reg st m named pk m.pkName = .ok pk := by
    rw [columnValue, columnValues, hnamed]
    simp only [pathValues_pkName hn hs hm hpk, Outcome.ok_bind]
    rfl
  rw [correlated, Expression.eval]
  simp only [hhere, Outcome.ok_bind, keysOf_correlated hn hs ht hback hne hm hpk]
  rw [Expression.evalOver, Expression.eval, Queryset.all, Expression.annotationsOf, Expression.meanings,
    ofMeanings_nil]

end Selected

end RecordMapper.Registry
