import RecordMapper.Proofs.Store.Trails

/-!
# Collecting — what an aggregate finds behind a path

An aggregate over a path cuts it behind its last to-many relation and
collects from the rows there. Without a filter it finds what the trail
of the whole path leads to (`aggregated_column`); with one, the rows
behind the cut are sifted one by one (`valuesBehind_eq`).
-/

namespace RecordMapper.Store

open RecordMapper.Registry

variable {reg : Registry} {st : Store} {m t : Model} {steps before behind : List PathStep} {s : PathStep}
  {names beforeNames behindNames : List String} {named : Named} {pk : Value}

/-! ## Cutting a path -/

theorem single_of_splitAtMany (h : splitAtMany steps names = none) :
    ∀ s ∈ steps, s.field.type.isMany = false := by
  rw [splitAtMany] at h
  split at h
  · rename_i hnone
    intro s hs
    obtain ⟨i, hi, rfl⟩ := List.getElem_of_mem hs
    have hmem : (steps[i], i) ∈ (steps.zip (List.range steps.length)).reverse := by
      rw [List.mem_reverse, List.mem_iff_getElem]
      exact ⟨i, by simpa using hi, by simp⟩
    simpa using List.find?_eq_none.mp hnone _ hmem
  · cases h

/-- The last to-many step of a path is the one that is found, with its place. -/
theorem exists_of_find?_isMany {i : Nat}
    (h : ((steps.zip (List.range steps.length)).reverse.find? fun e => e.1.field.type.isMany) = some (s, i)) :
    ∃ before behind, steps = before ++ [s] ++ behind ∧ before.length = i ∧ s.field.type.isMany ∧
      ∀ s' ∈ behind, s'.field.type.isMany = false := by
  obtain ⟨hmany, later, earlier, hsplit, hlater⟩ := List.find?_eq_some_iff_append.mp h
  have hzip : steps.zip (List.range steps.length) = earlier.reverse ++ [(s, i)] ++ later.reverse := by
    rw [← List.reverse_inj, hsplit]
    simp
  have hlength : steps.length = (List.range steps.length).length := List.length_range.symm
  have hfst := List.map_fst_zip (Nat.le_of_eq hlength)
  have hsnd := List.map_snd_zip (Nat.le_of_eq hlength.symm)
  rw [hzip] at hfst hsnd
  refine ⟨earlier.reverse.map Prod.fst, later.reverse.map Prod.fst, ?_, ?_, hmany, fun s' hs' => ?_⟩
  · rw [← hfst, List.map_append, List.map_append, List.map_singleton]
  · have hplace : (List.range steps.length)[earlier.length]? = some i := by
      rw [← hsnd]
      simp
    obtain ⟨_, hi⟩ := List.getElem?_eq_some_iff.mp hplace
    simpa using hi
  · obtain ⟨e, he, rfl⟩ := List.mem_map.mp hs'
    simpa using hlater e (List.mem_reverse.mp he)

/-- A cut stands behind a to-many step. -/
theorem exists_of_splitAtMany (h : splitAtMany steps names = some (beforeNames, behindNames)) :
    ∃ before s behind, steps = before ++ [s] ++ behind ∧ s.field.type.isMany ∧
      beforeNames = names.take (before ++ [s]).length ∧ behindNames = names.drop (before ++ [s]).length := by
  rw [splitAtMany] at h
  split at h
  · cases h
  · rename_i s i hfound
    cases h
    obtain ⟨before, behind, hsteps, rfl, hmany, -⟩ := exists_of_find?_isMany hfound
    refine ⟨before, s, behind, hsteps, hmany, ?_, ?_⟩
    all_goals rw [List.length_append, List.length_singleton]

/-! ## Collecting behind a cut -/

theorem pathValues_intercalate (hn : Navigable reg) (hroute : Route reg m steps) (hne : steps ≠ [])
    (hspells : Spells reg names steps) (hdots : ∀ n ∈ names, '.' ∉ n.toList) (hpk : pk.isNull = false) :
    pathValues reg st m pk (".".intercalate names) = .ok (trail reg st steps pk) := by
  refine pathValues_eq_trail hn hroute hne ?_ hpk
  rwa [dottedNames_intercalate _ hdots]
  rintro rfl
  exact hne (List.forall₂_nil_left_iff.mp hspells)

/-- The names of the fields of a route lead where the route does. -/
theorem pathValues_joinNames (hn : Navigable reg) (hroute : Route reg m steps) (hne : steps ≠ [])
    (hpk : pk.isNull = false) :
    pathValues reg st m pk (ResolvedPath.joinNames steps) = .ok (trail reg st steps pk) :=
  pathValues_intercalate hn hroute hne (hroute.spells hn) (hroute.not_dotted hn) hpk

/-- The name of the primary key is the path of its column. -/
theorem exists_pkField (hn : Navigable reg) (hm : m ∈ reg.models) :
    ∃ f, reg.resolvePath m m.pkName = .ok ⟨[], ⟨m, f⟩⟩ ∧ f.name = m.pkName ∧ f.isConcrete := by
  obtain ⟨f, hf, hname, hconcrete⟩ := hn.key m hm
  have hlocal : f ∈ m.localFields := List.mem_append_left _ hf
  have hfield : reg.field m m.pkName = .ok f := hname ▸ hn.field_of_mem hm hlocal
  have hdot : dottedNames m.pkName = [m.pkName] :=
    dottedNames_self (hname ▸ (hn.named m hm f hlocal).2.2)
  refine ⟨f, (resolvePath_eq_ok hn hm).mpr ⟨.last hm hlocal, ?_⟩, hname, hconcrete⟩
  rw [hdot]
  exact .cons hfield .nil

/-- The primary key of a row is what its own name leads to. -/
theorem exists_pkStep (st : Store) (hn : Navigable reg) (hm : m ∈ reg.models) :
    ∃ f, reg.resolvePath m m.pkName = .ok ⟨[], ⟨m, f⟩⟩ ∧ f.type.isMany = false ∧
      ∀ k : Value, k.isNull = false → trail reg st [⟨m, f⟩] k = [k] := by
  obtain ⟨f, hresolved, hname, hconcrete⟩ := exists_pkField hn hm
  refine ⟨f, hresolved, ?_, fun k hk => ?_⟩
  · unfold Field.isConcrete at hconcrete
    cases hft : f.type <;> rw [hft] at hconcrete <;> first | rfl | exact absurd hconcrete Bool.false_ne_true
  · rw [trail_singleton, hop_of_isConcrete hconcrete hk, hname, cell, if_pos]
    rw [beq_self_eq_true, Bool.or_true]

/-- What stands behind a cut is looked up from the row itself. -/
theorem readBehind_eq (hn : Navigable reg) (hroute : Route reg t behind)
    (hspells : Spells reg behindNames behind) (hdots : ∀ n ∈ behindNames, '.' ∉ n.toList)
    (hpk : pk.isNull = false) : readBehind reg st t behindNames pk = .ok (trail reg st behind pk) := by
  cases hspells with
  | nil => rfl
  | cons hname hrest =>
      exact pathValues_intercalate hn hroute (List.cons_ne_nil _ _) (.cons hname hrest) hdots hpk

/-- A row behind a cut gives what the trail behind the cut leads to, if it passes the filter. -/
def sifted (reg : Registry) (st : Store) (behind : List PathStep) (passes : Value → Outcome Bool)
    (related : Value) : Outcome (List Value) := do
  if ← passes related then return trail reg st behind related else return []

theorem valuesBehind_eq (hn : Navigable reg) (hm : m ∈ reg.models) (hpk : pk.isNull = false)
    (hleads : Leads reg m (before ++ [s]) t) (hroute : Route reg t behind)
    (hbefore : Spells reg beforeNames (before ++ [s])) (hbehind : Spells reg behindNames behind)
    (hdots : ∀ n ∈ beforeNames ++ behindNames, '.' ∉ n.toList) (filter : Option Condition) :
    valuesBehind reg st m named pk beforeNames behindNames filter = do
      let collected ← (given (trail reg st (before ++ [s]) pk)).mapM
        (sifted reg st behind fun related =>
          relatedPasses reg st m named pk (".".intercalate beforeNames) t related filter)
      return collected.flatten := by
  have hne : before ++ [s] ≠ [] := List.append_ne_nil_of_right_ne_nil before (List.cons_ne_nil s [])
  have hto : Route reg m (before ++ [s]) := List.append_nil (before ++ [s]) ▸ hleads.route (.nil t)
  have hdots₁ := fun n hmem => hdots n (List.mem_append_left behindNames hmem)
  have hdots₂ := fun n hmem => hdots n (List.mem_append_right beforeNames hmem)
  have hresolved : reg.resolvePath m (".".intercalate beforeNames) = .ok ⟨before, s⟩ :=
    resolvePath_intercalate hn hm hto hbefore hdots₁
  rw [valuesBehind]
  simp only [hresolved, Outcome.ok_bind, targetModel_eq hleads,
    pathValues_intercalate hn hto hne hbefore hdots₁ hpk]
  refine congrArg (· >>= _) (Outcome.mapM_congr fun related hrelated => ?_)
  have hnull : related.isNull = false :=
    Bool.eq_false_iff.mpr fun h => (mem_given.mp hrelated).2 (Value.isNull_iff.mp h)
  rw [readBehind_eq hn hroute hbehind hdots₂ hnull]
  rfl

/-- Null behind a cut adds nothing. -/
theorem given_flatMap_trail (vs : List Value) :
    given ((given vs).flatMap (trail reg st behind)) = given (vs.flatMap (trail reg st behind)) := by
  cases behind with
  | nil =>
      have hid : ∀ us : List Value, us.flatMap (trail reg st []) = us := fun us => by simp [trail]
      rw [hid, hid, given_given]
  | cons s rest => rw [flatMap_given (trail_null (List.cons_ne_nil s rest))]

/-- Steps that lead to at most one value lead to null or to that one. -/
theorem given_headD {vs : List Value} (h : vs.length ≤ 1) : given [vs.headD .null] = given vs := by
  cases vs with
  | nil => rfl
  | cons v rest =>
      obtain rfl : rest = [] := by simpa using h
      rfl

/-! ## What a resolved path gives on a row -/

section Resolved

variable {path : String} {p : ResolvedPath} (hn : Navigable reg) (hs : Consistent reg st)
  (hm : m ∈ reg.models) (hpk : pk ∈ st.keys m) (hp : reg.resolvePath m path = .ok p)

include hn hs hm hpk hp

theorem pathValues_eq : pathValues reg st m pk path = .ok (trail reg st p.steps pk) := by
  obtain ⟨hroute, hspells⟩ := (resolvePath_eq_ok hn hm).mp hp
  exact pathValues_eq_trail hn hroute (steps_ne_nil p) hspells (Value.isNull_of_isPlain (hs.plain m hm pk hpk))

theorem columnValue_eq (hnamed : named path = none) :
    columnValue reg st m named pk path = .ok ((trail reg st p.steps pk).headD .null) := by
  rw [columnValue, columnValues, hnamed]
  simp only [pathValues_eq hn hs hm hpk hp, Outcome.ok_bind]
  rfl

/-- Over a path that is not cut an aggregate reads the one value at its end. -/
theorem aggregated_of_single (hnamed : named path = none)
    (hsplit : splitAtMany p.steps (dottedNames path) = none) (filter : Option Condition) :
    aggregated reg st m named (.column path) (fun pk => columnValue reg st m named pk path) filter pk = do
      if ← passes reg st m named filter pk then return [(trail reg st p.steps pk).headD .null]
      else return [] := by
  simp only [aggregated, hnamed, Option.isSome_none, Bool.false_eq_true, if_false, hp, Outcome.ok_bind,
    Outcome.pure_eq_ok, hsplit, columnValue_eq hn hs hm hpk hp hnamed]
  cases filter with
  | none => rfl
  | some q => rfl

/-- Over a path that is cut it collects from the rows behind the cut. -/
theorem aggregated_of_cut (hnamed : named path = none)
    (hsplit : splitAtMany p.steps (dottedNames path) = some (beforeNames, behindNames))
    (value : RowValue) (filter : Option Condition) :
    ∃ before s behind t, p.steps = before ++ [s] ++ behind ∧ s.field.type.isMany ∧
      beforeNames = (dottedNames path).take (before ++ [s]).length ∧
      Leads reg m (before ++ [s]) t ∧
      aggregated reg st m named (.column path) value filter pk = do
        let collected ← (given (trail reg st (before ++ [s]) pk)).mapM
          (sifted reg st behind fun related =>
            relatedPasses reg st m named pk (".".intercalate beforeNames) t related filter)
        return collected.flatten := by
  have hnull := Value.isNull_of_isPlain (hs.plain m hm pk hpk)
  obtain ⟨hroute, hspells⟩ := (resolvePath_eq_ok hn hm).mp hp
  obtain ⟨before, s, behind, hsteps, hmany, rfl, rfl⟩ := exists_of_splitAtMany hsplit
  rw [hsteps] at hroute hspells
  obtain ⟨t, hleads, hbehind⟩ := hroute.cut_many hn hmany
  obtain ⟨hspells₁, hspells₂⟩ := Spells.cut hspells
  -- The names of the path, cut in two, are still names without dots.
  have hdots : ∀ n ∈ (dottedNames path).take (before ++ [s]).length ++
      (dottedNames path).drop (before ++ [s]).length, '.' ∉ n.toList := by
    rw [List.take_append_drop]
    exact fun n hmem => not_mem_of_mem_dottedNames hmem
  refine ⟨before, s, behind, t, hsteps, hmany, rfl, hleads, ?_⟩
  simp only [aggregated, hnamed, Option.isSome_none, Bool.false_eq_true, if_false, hp, Outcome.ok_bind,
    Outcome.pure_eq_ok, hsplit]
  exact valuesBehind_eq hn hm hnull hleads hbehind hspells₁ hspells₂ hdots filter

/-- Without a filter an aggregate over a path finds what its trail leads to. -/
theorem aggregated_column (hnamed : named path = none) :
    ∃ vs, aggregated reg st m named (.column path) (fun pk => columnValue reg st m named pk path) none pk =
        .ok vs ∧ given vs = given (trail reg st p.steps pk) := by
  cases hsplit : splitAtMany p.steps (dottedNames path) with
  | none =>
      have hroute := ((resolvePath_eq_ok hn hm).mp hp).1
      have hone := length_trail_le_one hn hs hroute (single_of_splitAtMany hsplit) hpk
      exact ⟨_, aggregated_of_single hn hs hm hpk hp hnamed hsplit none, given_headD hone⟩
  | some cut =>
      obtain ⟨before, s, behind, t, hsteps, _, _, _, hcollect⟩ := aggregated_of_cut hn hs hm hpk hp hnamed
        hsplit (fun pk => columnValue reg st m named pk path) none
      -- Every row passes, so all of them give what their trails lead to.
      have hcollected : (given (trail reg st (before ++ [s]) pk)).mapM
          (sifted reg st behind fun _ => .ok true) =
            .ok ((given (trail reg st (before ++ [s]) pk)).map (trail reg st behind)) :=
        Outcome.mapM_ok fun _ _ => rfl
      refine ⟨((given (trail reg st (before ++ [s]) pk)).map (trail reg st behind)).flatten, ?_, ?_⟩
      · rw [hcollect]
        simp only [relatedPasses, hcollected, Outcome.ok_bind]
        rfl
      · rw [hsteps, trail_append (before ++ [s]) behind, ← List.flatMap_def, given_flatMap_trail]

end Resolved

theorem pathValues_pkName (hn : Navigable reg) (hs : Consistent reg st) (hm : m ∈ reg.models)
    (hpk : pk ∈ st.keys m) : pathValues reg st m pk m.pkName = .ok [pk] := by
  obtain ⟨f, hresolved, _, htrail⟩ := exists_pkStep st hn hm
  have hnull := Value.isNull_of_isPlain (hs.plain m hm pk hpk)
  rw [pathValues_eq hn hs hm hpk hresolved]
  exact congrArg Except.ok (htrail pk hnull)

end RecordMapper.Store
