import RecordMapper.Proofs.Outcomes
import RecordMapper.Proofs.Read.Unfiltered
import RecordMapper.Store.Select

/-!
# Filtered — what detaching makes of a filter

The filter of an aggregate is written from the outer row. Detached it is
read from the related rows: a path through the relation is cut to what
stands behind it, and any other path is left as it is, although it now
starts at a related row. So a detached aggregate is the aggregate whose
filter has those other paths moved behind the relation
(`eval_detach_filter`), and keeps its value where there are none.

A condition asks for nothing but the values of its paths. So renaming
its paths is the same as reading them from elsewhere.
-/

namespace RecordMapper.Condition

mutual

/-- A condition with renamed paths reads what the new paths lead to. -/
theorem holds_mapPaths (f : String → String) (values : String → Outcome (List Value)) :
    ∀ q : Condition, (q.mapPaths f).holds values = q.holds fun path => values (f path)
  | .test path lookup => rfl
  | .all parts => allHold_mapPartPaths f values parts
  | .any parts => anyHolds_mapPartPaths f values parts
  | .not part => by rw [mapPaths, holds, holds, holds_mapPaths f values part]

/-- Part by part of a conjunction. -/
theorem allHold_mapPartPaths (f : String → String) (values : String → Outcome (List Value)) :
    ∀ parts : List Condition,
      allHold values (mapPartPaths f parts) = allHold (fun path => values (f path)) parts
  | [] => rfl
  | q :: rest => by
      rw [mapPartPaths, allHold, allHold, holds_mapPaths f values q, allHold_mapPartPaths f values rest]

/-- Part by part of a disjunction. -/
theorem anyHolds_mapPartPaths (f : String → String) (values : String → Outcome (List Value)) :
    ∀ parts : List Condition,
      anyHolds values (mapPartPaths f parts) = anyHolds (fun path => values (f path)) parts
  | [] => rfl
  | q :: rest => by
      rw [mapPartPaths, anyHolds, anyHolds, holds_mapPaths f values q, anyHolds_mapPartPaths f values rest]

end

mutual

/-- Paths that keep their names keep the condition. -/
theorem mapPaths_eq_self {f : String → String} : ∀ {q : Condition}, (∀ path ∈ q.paths, f path = path) →
    q.mapPaths f = q
  | .test path lookup, h => by rw [mapPaths, h path (List.mem_singleton_self path)]
  | .all parts, h => congrArg Condition.all (mapPartPaths_eq_self h)
  | .any parts, h => congrArg Condition.any (mapPartPaths_eq_self h)
  | .not part, h => congrArg Condition.not (mapPaths_eq_self h)

/-- Part by part. -/
theorem mapPartPaths_eq_self {f : String → String} : ∀ {parts : List Condition},
    (∀ path ∈ partPaths parts, f path = path) → mapPartPaths f parts = parts
  | [], _ => rfl
  | q :: rest, h => by
      have hq : q.mapPaths f = q := mapPaths_eq_self fun path hp => h path (List.mem_append_left _ hp)
      have hrest : mapPartPaths f rest = rest :=
        mapPartPaths_eq_self fun path hp => h path (List.mem_append_right _ hp)
      rw [mapPartPaths, hq, hrest]

end

end RecordMapper.Condition

namespace RecordMapper.Registry

open RecordMapper.Store
open scoped List

/-- What a path of a filter comes to mean on the outer row. `before` is how the path of the aggregate
starts, `hop` how the registry spells that start. -/
def relocate (before hop path : String) : String :=
  if path == hop then before
  else
    match below? hop path with
    | some inner => before ++ "." ++ inner
    | none => before ++ "." ++ path

/-! ## Paths behind a path -/

theorem below?_append (path inner : String) : below? path (path ++ "." ++ inner) = some inner := by
  have hlist : (path ++ "." ++ inner).toList = (path ++ ".").toList ++ inner.toList :=
    String.toList_append ..
  rw [below?, hlist, if_pos (List.isPrefixOf_iff_prefix.mpr (List.prefix_append _ _)), List.drop_left,
    String.ofList_toList]

theorem eq_of_below? {path p inner : String} (h : below? path p = some inner) :
    p = path ++ "." ++ inner := by
  rw [below?] at h
  split at h
  · rename_i hprefix
    cases h
    obtain ⟨rest, hrest⟩ := List.isPrefixOf_iff_prefix.mp hprefix
    rw [← String.toList_inj, String.toList_append, String.toList_ofList, ← hrest, List.drop_left]
  · cases h

theorem append_ne_self (path inner : String) : path ++ "." ++ inner ≠ path := by
  intro h
  have hlen := congrArg (fun s => s.toList.length) h
  simp at hlen

/-- A path keeps its meaning when it goes through the relation and the aggregate spells the relation as the
registry does. -/
theorem relocate_eq_self_iff {before hop path : String} :
    relocate before hop path = path ↔ before = hop ∧ (path = hop ∨ ∃ inner, path = hop ++ "." ++ inner) := by
  rw [relocate]
  by_cases hp : path = hop
  · simp [hp]
  · rw [beq_eq_false_iff_ne.mpr hp, if_neg Bool.false_ne_true]
    cases hbelow : below? hop path with
    | some inner =>
        obtain rfl := eq_of_below? hbelow
        constructor
        · intro h
          have hlist := congrArg String.toList h
          simp only [String.toList_append, List.append_left_inj] at hlist
          exact ⟨String.toList_inj.mp hlist, .inr ⟨inner, rfl⟩⟩
        · rintro ⟨rfl, _⟩
          rfl
    | none =>
        constructor
        · intro h
          have hlen := congrArg (fun s => s.toList.length) h
          simp at hlen
          omega
        · rintro ⟨_, rfl | ⟨inner, rfl⟩⟩
          · exact absurd rfl hp
          · rw [below?_append] at hbelow
            cases hbelow

/-- A filter is rooted at the related rows path by path. -/
theorem rootedAt_eq (path pk : String) (q : Condition) :
    q.rootedAt path pk = q.mapPaths fun p => if p == path then pk else (below? path p).getD p := by
  rw [Condition.rootedAt]
  congr 1
  funext p
  split
  · rfl
  · rw [below?]
    have hlen : (path ++ ".").toList.length = path.length + 1 := by
      rw [String.length_toList, String.length_append]
      rfl
    rw [hlen]
    split
    · rfl
    · rfl

theorem splitAtMany_of_single {steps : List PathStep} (h : ∀ s ∈ steps, s.field.type.isMany = false)
    (names : List String) : splitAtMany steps names = none := by
  cases hsplit : splitAtMany steps names with
  | none => rfl
  | some cut =>
      obtain ⟨before, s, behind, rfl, hmany, _⟩ := exists_of_splitAtMany hsplit
      rw [h s (by simp)] at hmany
      cases hmany

/-- The only to-many step of a route is where both cuts are. -/
theorem cut_unique {before behind before' behind' : List PathStep} {s s' : PathStep}
    (h : before ++ [s] ++ behind = before' ++ [s'] ++ behind')
    (hbefore : ∀ x ∈ before, x.field.type.isMany = false) (hbehind : ∀ x ∈ behind, x.field.type.isMany = false)
    (hmany : s'.field.type.isMany) : before = before' ∧ s = s' ∧ behind = behind' := by
  induction before generalizing before' with
  | nil =>
      cases before' with
      | nil => simpa using h
      | cons x rest =>
          obtain ⟨_, htail⟩ := List.cons.inj h
          rw [hbehind s' (by rw [show behind = rest ++ [s'] ++ behind' from htail]; simp)] at hmany
          cases hmany
  | cons x rest ih =>
      cases before' with
      | nil =>
          obtain ⟨rfl, _⟩ := List.cons.inj h
          rw [hbefore x List.mem_cons_self] at hmany
          cases hmany
      | cons x' rest' =>
          obtain ⟨rfl, htail⟩ := List.cons.inj h
          obtain ⟨rfl, rfl, rfl⟩ := ih htail fun y hy => hbefore y (List.mem_cons_of_mem x hy)
          exact ⟨rfl, rfl, rfl⟩

/-! ## The filter of a related row -/

variable {reg : Registry} {st : Store} {m target : Model} {before behind : List PathStep} {s : PathStep}
  {path : String} {p : ResolvedPath} {func : Aggregate} {distinct : Bool} {q : Condition} {named : Named}
  {pk b : Value}

section Rows

variable (hn : Navigable reg) (hs : Consistent reg st)

include hn hs

/-- A related row passes the filter that is rooted there when it passes the filter with its paths moved. -/
theorem relatedPasses_relocate (ht : target ∈ reg.models) (hb : b ∈ st.keys target) (start hop : String) :
    relatedPasses reg st m named pk start target b (some (q.mapPaths (relocate start hop))) =
      (q.rootedAt hop target.pkName).holds (columnValues reg st target (fun _ => none) b) := by
  rw [relatedPasses, rootedAt_eq, Condition.holds_mapPaths, Condition.holds_mapPaths]
  congr 1
  funext p
  by_cases hp : p = hop
  · -- The path to the related row is its primary key.
    simp only [relocate, hp, beq_self_eq_true, if_true]
    exact (pathValues_pkName hn hs ht hb).symm
  · have hne : (p == hop) = false := beq_eq_false_iff_ne.mpr hp
    -- Any other path is read from the related row: what stands behind the relation, or all of it.
    cases hbelow : below? hop p with
    | some inner =>
        have hself : (start ++ "." ++ inner == start) = false := beq_eq_false_iff_ne.mpr (append_ne_self _ _)
        simp only [relocate, hne, hbelow, hself, below?_append, Bool.false_eq_true, if_false]
        rfl
    | none =>
        have hself : (start ++ "." ++ p == start) = false := beq_eq_false_iff_ne.mpr (append_ne_self _ _)
        simp only [relocate, hne, hbelow, hself, below?_append, Bool.false_eq_true, if_false]
        rfl

/-- Behind the only to-many relation a related row gives the detached aggregate what it gives the other. -/
theorem given_sifted (ht : target ∈ reg.models) (hroute : Route reg target behind)
    (hsingle : ∀ s ∈ behind, s.field.type.isMany = false) (hb : b ∈ st.keys target)
    (passes : Value → Outcome Bool)
    (hpasses : passes b = q.holds (columnValues reg st target (fun _ => none) b)) :
    (sifted reg st behind passes b).map given =
      (aggregated reg st target (fun _ => none) (.column (innerPath target behind))
        (fun b => columnValue reg st target (fun _ => none) b (innerPath target behind)) (some q) b).map
          given := by
  obtain ⟨p, hp, htrail, hkeep⟩ := exists_inner hn hs.intact ht hroute
  have hinner := ((resolvePath_eq_ok hn ht).mp hp).1
  have hone := length_trail_le_one hn hs hinner (hkeep hsingle) hb
  have hgiven : given [(trail reg st p.steps b).headD .null] = given (trail reg st behind b) := by
    rw [given_headD hone, htrail b hb]
  rw [aggregated_of_single hn hs ht hb hp rfl (splitAtMany_of_single (hkeep hsingle) _), sifted, hpasses,
    Store.passes]
  cases q.holds (columnValues reg st target (fun _ => none) b) with
  | error _ => rfl
  | ok passed =>
      cases passed with
      | false => rfl
      | true => exact congrArg Except.ok hgiven.symm

/-- An aggregate over a path with one to-many relation collects from the rows behind it. -/
theorem eval_aggregate_cut (hm : m ∈ reg.models) (hpk : pk ∈ st.keys m) (hpath : named path = none)
    (hp : reg.resolvePath m path = .ok p) (hcut : Cut reg m p.steps before s behind target)
    (hsingle : ∀ s ∈ behind, s.field.type.isMany = false) (filter : Option Condition) :
    (Expression.aggregate func (.column path) distinct filter).eval reg st m named pk =
      ((given (trail reg st (before ++ [s]) pk)).mapM
        (sifted reg st behind fun related => relatedPasses reg st m named pk
          (".".intercalate ((dottedNames path).take (before ++ [s]).length)) target related filter)) >>=
        fun collected => Scalar.aggregate func collected.flatten distinct := by
  rw [Expression.eval]
  cases hsplit : splitAtMany p.steps (dottedNames path) with
  | none =>
      have hmany := hcut.many
      rw [single_of_splitAtMany hsplit s (by rw [hcut.steps]; simp)] at hmany
      cases hmany
  | some split =>
      obtain ⟨beforeNames, behindNames⟩ := split
      obtain ⟨before', s', behind', t, hsteps, hmany, rfl, hleads, hcollect⟩ := aggregated_of_cut hn hs hm
        hpk hp hpath hsplit ((Expression.column path).eval reg st m named) filter
      -- There is only one to-many step to cut behind, so it leads to the same model.
      obtain ⟨rfl, rfl, rfl⟩ := cut_unique (hcut.steps.symm.trans hsteps) hcut.single hsingle hmany
      obtain rfl := Option.some.inj (Except.ok.inj ((targetModel_eq hcut.leads).symm.trans
        (targetModel_eq hleads)))
      simp only [hcollect, bind_assoc, Outcome.pure_eq_ok, Outcome.ok_bind]

end Rows

/-- A detached aggregate is the aggregate whose filter has the paths that do not go through the relation
moved behind it. -/
theorem eval_correlated_filter (hn : Navigable reg) (hs : Consistent reg st) (hm : m ∈ reg.models)
    (hpk : pk ∈ st.keys m) (hpath : named path = none) (hkey : named m.pkName = none)
    (hp : reg.resolvePath m path = .ok p) (hcut : Cut reg m p.steps before s behind target)
    (hsingle : ∀ s ∈ behind, s.field.type.isMany = false) {link : String}
    (hlink : ResolvedPath.reversePath? ⟨before, s⟩ = some link)
    (hadd : func ≠ .count → Scalar.Addable (given (trail reg st p.steps pk))) (v : Value) :
    (correlated m target link func (before ++ [s]) behind distinct (some q)).eval reg st m named pk = .ok v ↔
      (Expression.aggregate func (.column path) distinct (some (q.mapPaths (relocate
        (".".intercalate ((dottedNames path).take (before ++ [s]).length))
        (ResolvedPath.joinNames (before ++ [s])))))).eval reg st m named pk = .ok v := by
  have ht := hcut.leads.mem_models hm
  obtain ⟨back, hback, hne, rfl, hiff⟩ := exists_back hn hs.intact hm hcut.leads hlink
  have hperm := trail_perm_reaching hn hs hm hcut.leads hcut.single hpk (hiff pk hpk)
  rw [eval_correlated hn hs hm hback hne ht hpk hkey, eval_aggregate_cut hn hs hm hpk hpath hp hcut hsingle]
  refine (Scalar.aggregate_collected_iff (g := trail reg st behind) hperm ?_ ?_ ?_).symm
  · intro b hb
    have hbk := (List.mem_filter.mp (hperm.mem_iff.mp hb)).1
    exact given_sifted hn hs ht hcut.route hsingle hbk _ (relatedPasses_relocate hn hs ht hbk _ _)
  · -- A row that does not pass gives less than its trail.
    intro b _ vs hvs
    obtain ⟨passed, _, hvs⟩ := Outcome.bind_eq_ok.mp hvs
    cases passed with
    | true =>
        cases hvs
        exact .refl _
    | false =>
        cases hvs
        exact List.nil_sublist _
  · intro hfunc
    rw [given_flatMap_trail, ← trail_append, ← hcut.steps]
    exact hadd hfunc

/-- What the paths of a filter come to mean once the aggregate over a path is detached. -/
def movedPath (path : String) (p : ResolvedPath) (x : String) : String :=
  match p.cutAtFirstMany? with
  | some (hop, _) =>
    relocate (".".intercalate ((dottedNames path).take hop.steps.length)) (ResolvedPath.joinNames hop.steps) x
  | none => x

/-- Over a path with one to-many relation a detached aggregate is the aggregate with the paths of its filter
moved, and the aggregate itself if none of them is. -/
theorem eval_detach_filter (named : Named) {decls : List ModelDecl} (hb : Registry.build decls = .ok reg)
    (hl : Legible reg) (hk : KeysAreColumns reg) (hd : SidesAreDeclared reg) (hs : Consistent reg st)
    (hm : m ∈ reg.models) (hpk : pk ∈ st.keys m) (hpath : named path = none) (hkey : named m.pkName = none)
    (hp : reg.resolvePath m path = .ok p) (hone : (p.steps.filter fun s => s.field.type.isMany).length ≤ 1)
    (hadd : func ≠ .count → ∀ vs, pathValues reg st m pk path = .ok vs → Scalar.Addable (given vs))
    {e' : Expression} (h : reg.detach m (.aggregate func (.column path) distinct (some q)) = .ok e') :
    (∀ v, e'.eval reg st m named pk = .ok v ↔
      (Expression.aggregate func (.column path) distinct (some (q.mapPaths (movedPath path p)))).eval
        reg st m named pk = .ok v) ∧
    ((∀ x ∈ q.paths, movedPath path p x = x) → ∀ v, e'.eval reg st m named pk = .ok v ↔
      (Expression.aggregate func (.column path) distinct (some q)).eval reg st m named pk = .ok v) := by
  have hn := navigable_of_build hb hl hk hd
  have hmoved : ∀ v, e'.eval reg st m named pk = .ok v ↔
      (Expression.aggregate func (.column path) distinct (some (q.mapPaths (movedPath path p)))).eval
        reg st m named pk = .ok v := by
    rw [detach] at h
    obtain ⟨p', hp', ⟨hnone, rfl⟩ | ⟨before, s, behind, target, link, hat, hcut, hlink, rfl⟩⟩ :=
      detachAggregate_eq_ok hn hm h
    · obtain rfl : p = p' := Except.ok.inj (hp.symm.trans hp')
      have hsame : q.mapPaths (movedPath path p) = q :=
        Condition.mapPaths_eq_self fun x _ => by rw [movedPath, hnone]
      intro v
      rw [hsame]
    · obtain rfl : p = p' := Except.ok.inj (hp.symm.trans hp')
      -- The to-many step at the cut is the only one.
      have hsingle : ∀ s ∈ behind, s.field.type.isMany = false := by
        rw [hcut.steps, List.filter_append, List.filter_append, List.length_append, List.length_append] at hone
        have hmany := hcut.many
        simp only [List.filter_cons, hmany, if_true, List.filter_nil, List.length_singleton] at hone
        have hnone : behind.filter (fun s => s.field.type.isMany) = [] :=
          List.eq_nil_of_length_eq_zero (by omega)
        simpa [List.filter_eq_nil_iff] using hnone
      have hsum : func ≠ .count → Scalar.Addable (given (trail reg st p.steps pk)) := by
        intro hfunc
        exact hadd hfunc _ (pathValues_eq hn hs hm hpk hp)
      have hmove : movedPath path p = relocate
          (".".intercalate ((dottedNames path).take (before ++ [s]).length))
          (ResolvedPath.joinNames (before ++ [s])) := by
        funext x
        rw [movedPath, hat]
        rfl
      rw [hmove]
      exact eval_correlated_filter hn hs hm hpk hpath hkey hp hcut hsingle hlink hsum
  refine ⟨hmoved, fun hself => ?_⟩
  rwa [Condition.mapPaths_eq_self hself] at hmoved

/-! ## Filters on what writers wrote -/

/-- The words of an author's longer articles. -/
def longer : Expression :=
  .aggregate .sum (.column "articles.words") false (some (.test "articles.words" (.gt (.int 400))))

/-- The path `articles.words` from an author. -/
def wordsPath : ResolvedPath :=
  match (built writers).resolvePath author "articles.words" with
  | .ok p => p
  | .error _ => default

theorem eval_detached_longer :
    (Legible (built writers) ∧ KeysAreColumns (built writers) ∧ SidesAreDeclared (built writers) ∧
      Consistent (built writers) writings ∧ author ∈ (built writers).models ∧ .int 1 ∈ writings.keys author ∧
      (built writers).resolvePath author "articles.words" = .ok wordsPath ∧
      (wordsPath.steps.filter fun s => s.field.type.isMany).length ≤ 1 ∧
      (built writers).detach author longer = .ok (detached (built writers) author longer)) ∧
    longer.eval (built writers) writings author (fun _ => none) (.int 1) = .ok (.int 500) ∧
    ∀ v, (detached (built writers) author longer).eval (built writers) writings author (fun _ => none) (.int 1) =
        .ok v ↔
      longer.eval (built writers) writings author (fun _ => none) (.int 1) = .ok v := by
  have hl : Legible (built writers) := by decide
  have hk : KeysAreColumns (built writers) := by decide
  have hd : SidesAreDeclared (built writers) := sidesAreDeclared_of_forward (by decide)
  have hm : author ∈ (built writers).models := by decide
  have hpk : .int 1 ∈ writings.keys author := by decide
  have hp : (built writers).resolvePath author "articles.words" = .ok wordsPath := rfl
  have hone : (wordsPath.steps.filter fun s => s.field.type.isMany).length ≤ 1 := by decide
  have h : (built writers).detach author longer = .ok (detached (built writers) author longer) := rfl
  have hkept := eval_detach_filter (fun _ => none) build_writers hl hk hd writings_consistent hm hpk rfl rfl hp
    hone (fun _ vs hvs => by
      obtain rfl : [.int 300, .int 500] = vs := Except.ok.inj hvs
      exact ⟨by decide, by decide⟩) h
  exact ⟨⟨hl, hk, hd, writings_consistent, hm, hpk, hp, hone, h⟩, rfl, hkept.2 (by decide)⟩

/-- The articles of the author under 1, asked for by the author's own key. -/
def ownArticles : Expression :=
  .aggregate .count (.column "articles") false (some (.test "id" (.exact (.int 1))))

/-- A path that stays is read from the related rows: detached, the articles of the author under 1 are those
under 1 themselves. -/
theorem detached_filter_strays :
    Registry.build writers = .ok (built writers) ∧ Legible (built writers) ∧ KeysAreColumns (built writers) ∧
      SidesAreDeclared (built writers) ∧ Consistent (built writers) writings ∧
      author ∈ (built writers).models ∧ .int 1 ∈ writings.keys author ∧
      (built writers).detach author ownArticles = .ok (detached (built writers) author ownArticles) ∧
      ownArticles.eval (built writers) writings author (fun _ => none) (.int 1) = .ok (.int 2) ∧
      (detached (built writers) author ownArticles).eval (built writers) writings author (fun _ => none)
        (.int 1) = .ok (.int 1) :=
  ⟨rfl, by decide, by decide, sidesAreDeclared_of_forward (by decide), writings_consistent, by decide,
    by decide, rfl, rfl, rfl⟩

end RecordMapper.Registry
