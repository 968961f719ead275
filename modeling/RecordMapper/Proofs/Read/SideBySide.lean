import RecordMapper.Proofs.Read.Collected
import RecordMapper.Proofs.Steps.Joined

/-!
# Side by side — fields that are collected in any order

The links of a field are what it collects alone. Whether the fields are
collected one after another, in rounds, in laps, or in turns of any
order, together they have the links that each of them has alone; and if
one of them fails, so does the whole.
-/

namespace RecordMapper

open World

variable {app : Application} {ctx : Context}

theorem Application.quiet_fetch (app : Application) (ctx : Context) (qs : Queryset)
    (columns : List SelectColumn) : Job.Quiet (app.fetch ctx qs columns) := by
  refine .bind (.ofOutcome _) fun database => ?_
  split
  · exact .pure _
  · exact .ask fun w => (w.unchanged_fetch database qs columns).toSameStores

namespace Collecting

theorem quiet_advance (c : Collecting) : Job.Quiet (c.advance app ctx) := by
  rw [advance]
  split
  · exact .pure _
  · refine .bind (.attempt ?_) fun _ => .ofOutcome _
    split
    · exact app.quiet_fetch ctx _ _
    · exact .pure _

theorem quiet_advanceBy (n : Nat) (c : Collecting) : Job.Quiet (advanceBy app ctx n c) := by
  induction n generalizing c with
  | zero => exact .pure _
  | succ n ih => exact (quiet_advance c).bind ih

/-! ## One field -/

/-- Collects what is left of a field. -/
def finish (app : Application) (ctx : Context) (c : Collecting) : Job Collecting :=
  advanceBy app ctx c.todo.length c

/-- Collects a field. -/
def collect (app : Application) (ctx : Context) (owners : List Value) (f : SchemaField) : Job Collecting := do
  finish app ctx (← Job.ofOutcome (start app ctx owners f))

theorem quiet_collect (owners : List Value) (f : SchemaField) : Job.Quiet (collect app ctx owners f) :=
  .bind (.ofOutcome _) fun c => quiet_advanceBy _ c

theorem length_todo_settle {f : SchemaField} {steps : List LinkStep} {links : Links} {c : Collecting}
    (h : settle app ctx f steps links = .ok c) : c.todo.length ≤ steps.length := by
  induction steps generalizing links with
  | nil =>
      cases h
      exact Nat.le_refl _
  | cons step rest ih =>
      rw [settle] at h
      split at h
      · exact Nat.le_succ_of_le (ih h)
      · obtain ⟨_, _, h⟩ := Outcome.bind_eq_ok.mp h
        split at h
        · exact Nat.le_succ_of_le (ih h)
        · cases h
          exact Nat.le_refl _

/-- Every query of a field leaves it fewer steps. -/
theorem returns_advance (c : Collecting) :
    Job.Returns (fun c' => c'.todo.length ≤ c.todo.length - 1) (c.advance app ctx) := by
  obtain ⟨f, todo, links⟩ := c
  cases todo with
  | nil => exact .pure (Nat.le_refl _)
  | cons step rest =>
      refine .bind (.any _) fun fetched _ w c' hc' => ?_
      rcases recovered_eq_ok hc' with hc' | rfl
      · obtain ⟨rows, _, hc'⟩ := Outcome.bind_eq_ok.mp hc'
        exact length_todo_settle hc'
      · exact Nat.zero_le _

/-- Queries beyond the steps that are left make no difference. -/
theorem advanceBy_same {n m : Nat} {c : Collecting} (hn : c.todo.length ≤ n) (hm : c.todo.length ≤ m) :
    Job.Same (advanceBy app ctx n c) (advanceBy app ctx m c) := by
  have hdone : ∀ (n : Nat) {c : Collecting}, c.todo = [] → advanceBy app ctx n c = pure c := by
    intro n c hc
    induction n with
    | zero => rfl
    | succ n ih =>
        rw [advanceBy, advance, hc]
        exact ih
  induction n generalizing m c with
  | zero =>
      have hc := List.length_eq_zero_iff.mp (Nat.le_zero.mp hn)
      rw [hdone 0 hc, hdone m hc]
      exact .rfl
  | succ n ih =>
      cases m with
      | zero =>
          have hc := List.length_eq_zero_iff.mp (Nat.le_zero.mp hm)
          rw [hdone 0 hc, hdone _ hc]
          exact .rfl
      | succ m => exact .bindOf .rfl (returns_advance c) fun c' hc' => ih (by omega) (by omega)

/-- Collecting what is left begins with the next query. -/
theorem finish_same (c : Collecting) :
    Job.Same (finish app ctx c) (c.advance app ctx >>= finish app ctx) := by
  have hmore : Job.Same (finish app ctx c) (advanceBy app ctx (c.todo.length + 1) c) :=
    advanceBy_same (Nat.le_refl _) (Nat.le_succ _)
  intro w
  rw [hmore w, advanceBy]
  exact Job.Same.bindOf .rfl (returns_advance c) (fun c' hc' => advanceBy_same (by omega) (Nat.le_refl _)) w

theorem finish_done {c : Collecting} (h : c.todo = []) : finish app ctx c = pure c := by
  rw [finish, h]
  rfl

/-! ## All fields -/

theorem collects_inTurn (owners : List Value) (fields : List SchemaField) :
    Job.Collects (fields.map (collect app ctx owners)) (inTurn app ctx owners fields) :=
  Job.collects_mapM fun f _ => quiet_collect owners f

theorem length_todo_le_longest {cs : List Collecting} : ∀ c ∈ cs, c.todo.length ≤ longest cs := by
  have hmax : ∀ (ns : List Nat) (n : Nat), n ≤ ns.foldl max n ∧ ∀ m ∈ ns, m ≤ ns.foldl max n := by
    intro ns
    induction ns with
    | nil => exact fun n => ⟨Nat.le_refl n, by simp⟩
    | cons m rest ih =>
        intro n
        obtain ⟨hstart, hrest⟩ := ih (max n m)
        rw [List.foldl_cons]
        refine ⟨Nat.le_trans (Nat.le_max_left n m) hstart, fun k hk => ?_⟩
        rcases List.mem_cons.mp hk with rfl | hk
        · exact Nat.le_trans (Nat.le_max_right n k) hstart
        · exact hrest k hk
  exact fun c hc => (hmax _ 0).2 _ (List.mem_map_of_mem hc)

theorem leadsTo_rounds {n : Nat} {cs : List Collecting} (h : ∀ c ∈ cs, c.todo.length ≤ n) :
    Job.LeadsTo (cs.map (finish app ctx)) (List.map fun c => pure c) (rounds app ctx n cs) := by
  induction n generalizing cs with
  | zero =>
      have hdone : cs.map (finish app ctx) = cs.map fun c => pure c :=
        List.map_congr_left fun c hc => finish_done (List.length_eq_zero_iff.mp (Nat.le_zero.mp (h c hc)))
      rw [hdone]
      exact fun w _ => ⟨.refl w, rfl⟩
  | succ n ih =>
      have hround : Job.Returns (fun cs' => ∀ c ∈ cs', c.todo.length ≤ n) (cs.mapM (advance app ctx)) :=
        .mapM_all fun c hc => (returns_advance c).imp fun c' hc' => by
          have hlength := h c hc
          omega
      exact (Job.leadsTo_mapM (fun c _ => quiet_advance c) fun c _ => finish_same c).bind hround fun _ hcs => ih hcs

theorem collects_inRounds (owners : List Value) (fields : List SchemaField) :
    Job.Collects (fields.map (collect app ctx owners)) (inRounds app ctx owners fields) :=
  ((Job.leadsTo_ofOutcome fun _ _ => .rfl).bind (.any _) fun _ _ =>
    leadsTo_rounds length_todo_le_longest).collects

/-! ## Laps -/

/-- Collects what is left of a field that may have failed. -/
def rest (app : Application) (ctx : Context) (r : Outcome Collecting) : Job Collecting := do
  finish app ctx (← Job.ofOutcome r)

theorem error_mem_of_due {cs : List (Outcome Collecting)} {e : Failure} (h : due? cs = some e) :
    .error e ∈ cs := by
  induction cs with
  | nil => cases h
  | cons r cs ih =>
      cases r with
      | ok c =>
          rw [due?] at h
          split at h
          · exact List.mem_cons_of_mem _ (ih h)
          · cases h
      | error e' =>
          cases h
          exact List.mem_cons_self

/-- Where a field is due, the others do not matter. -/
theorem alone_of_due {cs : List (Outcome Collecting)} {e : Failure} (h : due? cs = some e) (w : World) :
    w.alone (cs.map (rest app ctx)) = none :=
  alone_eq_none (List.mem_map_of_mem (error_mem_of_due h)) (f := e) rfl

theorem leadsTo_lap (places : List Nat) (cs : List (Outcome Collecting)) :
    Job.LeadsTo (cs.map (rest app ctx)) (List.map (rest app ctx)) (lap app ctx places cs) := by
  induction places generalizing cs with
  | nil => exact fun w _ => ⟨.refl w, rfl⟩
  | cons place places ih =>
      rw [lap]
      split
      · rename_i c hc
        -- The field that sends has left of it what yields the same.
        have hstep : Job.LeadsTo (cs.map (rest app ctx)) (fun r => (cs.set place r).map (rest app ctx))
            (Job.attempt (c.advance app ctx)) := by
          intro w hw
          have hquiet : Job.Quiet (c.advance app ctx) := quiet_advance c
          have htwin := hquiet.twin hw
          rw [runJob_attempt]
          refine ⟨htwin, ?_⟩
          show w.alone ((cs.set place (w.runJob (c.advance app ctx)).1).map (rest app ctx)) = _
          rw [List.map_set]
          have hfield : (cs.map (rest app ctx))[place]? = some (finish app ctx c) := by
            rw [List.getElem?_map, hc]
            rfl
          refine alone_set (.refl w) hw hfield (congrArg Except.toOption ?_)
          rw [finish_same c w, (quiet_advance c).runJob_bind _ hw]
          cases (w.runJob (c.advance app ctx)).1 <;> rfl
        refine hstep.bind (.any _) fun r _ => ?_
        dsimp only
        split
        · rename_i e he
          exact .throw fun w => alone_of_due he w
        · exact ih _
      · exact ih cs

/-- A lap leaves fewer steps of every field that has its turn. -/
theorem returns_lap {n : Nat} {places : List Nat} {cs : List (Outcome Collecting)}
    (h : ∀ i c, cs[i]? = some (.ok c) → c.todo.length ≤ n + 1 ∧ (i ∉ places → c.todo.length ≤ n)) :
    Job.Returns (fun cs' => cs'.length = cs.length ∧ ∀ c, .ok c ∈ cs' → c.todo.length ≤ n)
      (lap app ctx places cs) := by
  induction places generalizing cs with
  | nil =>
      refine .pure ⟨rfl, fun c hc => ?_⟩
      obtain ⟨i, hi⟩ := List.mem_iff_getElem?.mp hc
      exact (h i c hi).2 List.not_mem_nil
  | cons place places ih =>
      rw [lap]
      split
      · rename_i c hc
        have hstep : Job.Returns (fun r : Outcome Collecting => ∀ c', r = .ok c' → c'.todo.length ≤ n)
            (Job.attempt (c.advance app ctx)) := by
          intro w r hr c' hc'
          rw [runJob_attempt] at hr
          have hless := returns_advance c w c' ((Except.ok.inj hr).trans hc')
          have hlength := (h place c hc).1
          omega
        refine hstep.bind fun r hr => ?_
        dsimp only
        split
        · exact .throw _
        · refine (ih fun i c' hi => ?_).imp fun cs' hcs' => ⟨hcs'.1.trans List.length_set, hcs'.2⟩
          rw [List.getElem?_set] at hi
          split at hi
          · rename_i hplace
            split at hi
            · have hlength := hr c' (Option.some.inj hi)
              exact ⟨by omega, fun _ => hlength⟩
            · cases hi
          · rename_i hplace
            refine ⟨(h i c' hi).1, fun hout => (h i c' hi).2 fun hmem => ?_⟩
            rcases List.mem_cons.mp hmem with rfl | hmem
            · exact hplace rfl
            · exact hout hmem
      · rename_i hother
        refine ih fun i c hi => ⟨(h i c hi).1, fun hout => (h i c hi).2 fun hmem => ?_⟩
        rcases List.mem_cons.mp hmem with rfl | hmem
        · exact hother c hi
        · exact hout hmem

/-- So many laps through all places leave nothing of the fields. -/
theorem leadsTo_laps {n : Nat} {places : List Nat} {cs : List (Outcome Collecting)}
    (hplaces : ∀ i < cs.length, i ∈ places) (h : ∀ c, .ok c ∈ cs → c.todo.length ≤ n) :
    Job.LeadsTo (cs.map (rest app ctx)) (List.map Job.ofOutcome) (laps app ctx n places cs) := by
  induction n generalizing places cs with
  | zero =>
      have hdone : cs.map (rest app ctx) = cs.map Job.ofOutcome := List.map_congr_left fun r hr => by
        cases r with
        | error e => rfl
        | ok c => exact finish_done (List.length_eq_zero_iff.mp (Nat.le_zero.mp (h c hr)))
      rw [hdone]
      exact fun w _ => ⟨.refl w, rfl⟩
  | succ n ih =>
      have hlap : Job.Returns (fun cs' => cs'.length = cs.length ∧ ∀ c, .ok c ∈ cs' → c.todo.length ≤ n)
          (lap app ctx places cs) :=
        returns_lap fun i c hi => ⟨h c (List.mem_of_getElem? hi), fun hout =>
          absurd (hplaces i (List.getElem?_eq_some_iff.mp hi).1) hout⟩
      refine (leadsTo_lap places cs).bind hlap fun cs' ⟨hlength, hcs'⟩ => ih (fun i hi => ?_) hcs'
      exact List.mem_reverse.mpr (hplaces i (hlength ▸ hi))

theorem collects_inLaps (owners : List Value) (fields : List SchemaField) :
    Job.Collects (fields.map (collect app ctx owners)) (inLaps app ctx owners fields) := by
  have hfields : fields.map (collect app ctx owners) = (fields.map (start app ctx owners)).map (rest app ctx) := by
    rw [List.map_map]
    rfl
  rw [hfields, inLaps]
  generalize fields.map (start app ctx owners) = cs
  split
  · rename_i e he
    exact fun w _ => ⟨.refl w, (alone_of_due he w).symm⟩
  · have hplaces : ∀ i < cs.length, i ∈ (List.range cs.length).reverse := fun i hi =>
      List.mem_reverse.mpr (List.mem_range.mpr hi)
    have hlongest : ∀ c, .ok c ∈ cs → c.todo.length ≤ longest (cs.filterMap Except.toOption) := fun c hc =>
      length_todo_le_longest c (List.mem_filterMap.mpr ⟨.ok c, hc, rfl⟩)
    refine ((leadsTo_laps hplaces hlongest).bind (.any _) fun cs' _ => ?_).collects
    refine Job.leadsTo_ofOutcome fun r _ w => ?_
    rw [bind_pure]
    rfl

/-- Fields that are collected side by side have the links that each of them has alone. -/
theorem collects_sideBySide (owners : List Value) (fields : List SchemaField) :
    Job.Collects (fields.map (collect app ctx owners)) (sideBySide app ctx owners fields) := by
  rw [sideBySide]
  split
  · exact collects_inRounds owners fields
  · exact collects_inLaps owners fields

end Collecting

end RecordMapper

/-!
## Finding links — the links of a field in one go

The links of an isolated field are collected query by query, with a look
at the failure policy after each. The same links are found by taking the
steps of the field one after another (`findLinks`), and asking the policy
once, at the end (`collect_eq_findLinks`).
-/

namespace RecordMapper

namespace Application

/-- The rows that the query of a step fetches; a step without a query needs none. -/
def rowsOf (app : Application) (ctx : Context) (step : LinkStep) : Job (List Record) :=
  match step.query? with
  | some (qs, columns) => app.fetch ctx qs columns
  | none => return []

/-- The links with those that some steps find, one after another. -/
def takeSteps (app : Application) (ctx : Context) (steps : List LinkStep) (links : Links) : Job Links :=
  steps.foldlM (fun links step => do return links.extend (step.links (← app.rowsOf ctx step))) links

/-- The links of a field. -/
def findLinks (app : Application) (ctx : Context) (owners : List Value) (f : SchemaField) : Job Links := do
  app.takeSteps ctx (← Job.ofOutcome (f.linkSteps owners)) []

end Application

namespace Job

variable {α β : Type}

/-- An attempt at two parts is an attempt at the second if the first succeeds. -/
theorem attempt_bind (j : Job α) (k : α → Job β) : attempt (j >>= k) = attempt j >>= fun r =>
    match r with
    | .ok a => attempt (k a)
    | .error e => pure (.error e) := by
  show ExceptT.mk ((Steps.bind j.run (ExceptT.bindCont k)).bind _) = ExceptT.mk ((j.run.bind _).bind _)
  rw [Steps.bind_bind, Steps.bind_bind]
  refine congrArg (fun next => ExceptT.mk (Steps.bind j.run next)) (funext fun r => ?_)
  cases r <;> rfl

end Job

namespace Collecting

variable {app : Application} {ctx : Context} {f : SchemaField}

theorem takeSteps_cons (step : LinkStep) (rest : List LinkStep) (links : Links) :
    app.takeSteps ctx (step :: rest) links = app.rowsOf ctx step >>= fun rows =>
      app.takeSteps ctx rest (links.extend (step.links rows)) := by
  rw [Application.takeSteps, List.foldlM_cons, bind_assoc]
  rfl

/-- Taking steps begins with settling those that send no query. -/
theorem takeSteps_settle (f : SchemaField) (steps : List LinkStep) (links : Links) :
    app.takeSteps ctx steps links =
      Job.ofOutcome (settle app ctx f steps links) >>= fun c => app.takeSteps ctx c.todo c.links := by
  induction steps generalizing links with
  | nil => rfl
  | cons step rest ih =>
      cases hquery : step.query? with
      | none =>
          rw [takeSteps_cons, settle, Application.rowsOf, hquery]
          exact ih _
      | some query =>
          cases hdatabase : app.databaseOf ctx query.1 with
          | error e =>
              rw [takeSteps_cons, settle, Application.rowsOf, hquery]
              simp only [Application.fetch, hdatabase]
              rfl
          | ok database =>
              by_cases hnone : query.1.isNone
              · rw [takeSteps_cons, settle, Application.rowsOf, hquery]
                simp only [Application.fetch, hdatabase, hnone, if_true]
                exact ih _
              · -- The step sends its query, so nothing is settled.
                have hstop : settle app ctx f (step :: rest) links = .ok ⟨f, step :: rest, links⟩ := by
                  simp [settle, hquery, hdatabase, hnone]
                rw [hstop]
                rfl

/-- What becomes of a field whose links are found, or whose links cannot be found. -/
def settled (ctx : Context) (f : SchemaField) (found : Outcome Links) : Outcome Collecting :=
  recovered ctx f (found.map fun links => ⟨f, [], links⟩)

/-- A field that has failed is over, unless its failure is reported. -/
theorem advanceBy_recovered (n : Collecting → Nat) (e : Failure) :
    (Job.ofOutcome (recovered ctx f (.error e)) >>= fun c => advanceBy app ctx (n c) c) =
      Job.ofOutcome (settled ctx f (.error e)) := by
  have hdone : ∀ n, advanceBy app ctx n ⟨f, [], []⟩ = pure ⟨f, [], []⟩ := by
    intro n
    induction n with
    | zero => rfl
    | succ n ih => exact ih
  rw [settled, Outcome.map_error, recovered]
  cases f.report? ctx e with
  | some e => rfl
  | none => exact hdone _

/-- A field whose steps are settled goes on to take the rest, however many queries it may send at most. -/
theorem advanceBy_settle {steps : List LinkStep} {links : Links} (n : Collecting → Nat)
    (h : ∀ c, settle app ctx f steps links = .ok c → advanceBy app ctx (n c) c =
      Job.attempt (app.takeSteps ctx c.todo c.links) >>= fun found => Job.ofOutcome (settled ctx c.field found)) :
    (Job.ofOutcome (recovered ctx f (settle app ctx f steps links)) >>= fun c => advanceBy app ctx (n c) c) =
      Job.attempt (app.takeSteps ctx steps links) >>= fun found => Job.ofOutcome (settled ctx f found) := by
  rw [takeSteps_settle f]
  cases hsettle : settle app ctx f steps links with
  | ok c =>
      obtain rfl : c.field = f := (settle_spec hsettle).1
      exact h c hsettle
  | error e => exact advanceBy_recovered n e

/-- Queries one after another find what taking all steps finds. -/
theorem advanceBy_eq_takeSteps (n : Nat) (c : Collecting) (hn : c.todo.length ≤ n) :
    advanceBy app ctx n c = Job.attempt (app.takeSteps ctx c.todo c.links) >>= fun found =>
      Job.ofOutcome (settled ctx c.field found) := by
  induction n generalizing c with
  | zero =>
      obtain ⟨f, todo, links⟩ := c
      obtain rfl := List.length_eq_zero_iff.mp (Nat.le_zero.mp hn)
      rfl
  | succ n ih =>
      obtain ⟨f, todo, links⟩ := c
      cases todo with
      | nil => exact ih ⟨f, [], links⟩ (Nat.zero_le n)
      | cons step rest =>
          have hadvance : advanceBy app ctx (n + 1) ⟨f, step :: rest, links⟩ =
              Job.attempt (app.rowsOf ctx step) >>= fun fetched =>
                Job.ofOutcome (recovered ctx f (fetched >>= fun rows =>
                  settle app ctx f rest (links.extend (step.links rows)))) >>= advanceBy app ctx n :=
            bind_assoc _ _ _
          rw [hadvance, takeSteps_cons, Job.attempt_bind, bind_assoc]
          refine congrArg (Job.attempt (app.rowsOf ctx step) >>= ·) (funext fun fetched => ?_)
          cases fetched with
          | error e => exact advanceBy_recovered (fun _ => n) e
          | ok rows =>
              refine advanceBy_settle (fun _ => n) fun c hc => ih c ?_
              have hrest : rest.length + 1 ≤ n + 1 := hn
              have hless := length_todo_settle hc
              omega

/-- A field is collected by finding its links. -/
theorem collect_eq_findLinks (owners : List Value) :
    collect app ctx owners f = Job.attempt (app.findLinks ctx owners f) >>= fun found =>
      Job.ofOutcome (settled ctx f found) := by
  rw [collect, start, Application.findLinks]
  cases f.linkSteps owners with
  | error e => exact advanceBy_recovered (fun c => c.todo.length) e
  | ok steps =>
      exact advanceBy_settle (fun c => c.todo.length) fun c _ => advanceBy_eq_takeSteps _ c (Nat.le_refl _)

end Collecting

end RecordMapper
