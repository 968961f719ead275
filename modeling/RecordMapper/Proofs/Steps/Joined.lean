import RecordMapper.Proofs.Steps.Twins

/-!
# Joined — jobs that take turns

A computation can be polled: it sends its next call, and yields what is
left of it. Polled often enough it has done what it does in one run
(`exists_pollBy`). Jobs run side by side when they are polled in turns,
and whoever waits for them may look at one of them at any time and give
up if it has failed. Jobs that leave the stores as they are can take
their turns in any order: together they yield what each of them yields
alone, or nothing where one of them fails (`collects_joined`).
-/

namespace RecordMapper

/-! ## Polling -/

namespace Steps

variable {α : Type}

/-- Sends the next call or reads the clock, and yields the rest. -/
def poll : Steps α → Steps (Steps α)
  | .done a => .done (.done a)
  | .ask database c next => .ask database c fun r => .done (next r)
  | .clock next => .clock fun now => .done (next now)

/-- Polls so many times. -/
def pollBy : Nat → Steps α → Steps (Steps α)
  | 0, s => .done s
  | n + 1, s => s.poll.bind (pollBy n)

end Steps

namespace World

variable {α : Type}

/-- What is left after a poll does from there what the whole does. -/
theorem run_poll (s : Steps α) (w : World) : run (run s.poll w).1 (run s.poll w).2 = run s w := by
  cases s <;> rfl

/-- What is done stays so. -/
theorem run_pollBy_done (n : Nat) (a : α) (w : World) : run ((Steps.done a).pollBy n) w = (.done a, w) := by
  induction n with
  | zero => rfl
  | succ n ih => exact ih

/-- Polled often enough, a computation is done. -/
theorem exists_pollBy (s : Steps α) (w : World) :
    ∃ n, ∀ m, n ≤ m → run (s.pollBy m) w = (.done (run s w).1, (run s w).2) := by
  have hnext : ∀ {s s' : Steps α} {w w' : World}, run s.poll w = (s', w') → run s w = run s' w' →
      (∃ n, ∀ m, n ≤ m → run (s'.pollBy m) w' = (.done (run s' w').1, (run s' w').2)) →
      ∃ n, ∀ m, n ≤ m → run (s.pollBy m) w = (.done (run s w).1, (run s w).2) := by
    rintro s s' w w' hpoll hrun ⟨n, hn⟩
    refine ⟨n + 1, fun m hm => ?_⟩
    obtain ⟨m, rfl⟩ : ∃ k, m = k + 1 := ⟨m - 1, by omega⟩
    rw [Steps.pollBy, run_bind, hpoll, hrun]
    exact hn m (by omega)
  induction s generalizing w with
  | done a => exact ⟨0, fun m _ => run_pollBy_done m a w⟩
  | ask database c next ih => exact hnext rfl rfl (ih _ _)
  | clock next ih => exact hnext rfl rfl (ih _ _)

end World

/-! ## Computations that leave the stores -/

namespace Steps

variable {α β : Type}

/-- Every call of a computation leaves the stores as they are. -/
inductive Quiet : Steps α → Prop
  | done (a : α) : Quiet (.done a)
  | ask {database : String} {c : Call} {next : Outcome c.Reply → Steps α}
    (leaves : ∀ w : World, w.SameStores (w.perform database c).2) (rest : ∀ r, Quiet (next r)) :
    Quiet (.ask database c next)
  | clock {next : Instant → Steps α} (rest : ∀ now, Quiet (next now)) : Quiet (.clock next)

theorem Quiet.bind {s : Steps α} {f : α → Steps β} (hs : s.Quiet) (hf : ∀ a, (f a).Quiet) :
    (s.bind f).Quiet := by
  induction hs with
  | done a => exact hf a
  | ask leaves _ ih => exact .ask leaves ih
  | clock _ ih => exact .clock ih

open World in
theorem Quiet.twin {s : Steps α} (hs : s.Quiet) {w : World} (hw : w.Still) : Twin w (run s w).2 := by
  induction hs generalizing w with
  | done a => exact .refl w
  | @ask database c next leaves _ ih =>
      have hcall : Twin w (w.perform database c).2 :=
        SameStores.twin (s := .ask database c .done) hw (leaves w)
      exact hcall.trans (ih _ (hcall.toAlike.still hw))
  | @clock next _ ih =>
      rw [run_clock hw]
      exact ih _ hw

/-- What is left of a computation that leaves the stores leaves them too. -/
theorem Quiet.run_poll {s : Steps α} (hs : s.Quiet) (w : World) :
    (World.run s.poll w).1.Quiet ∧ s.poll.Quiet := by
  cases hs with
  | done a => exact ⟨.done a, .done _⟩
  | ask leaves rest => exact ⟨rest _, .ask leaves fun _ => .done _⟩
  | clock rest => exact ⟨rest _, .clock fun _ => .done _⟩

end Steps

namespace Job

open World

variable {α β : Type}

/-- Every call of a job leaves the stores as they are. -/
def Quiet (j : Job α) : Prop := j.run.Quiet

namespace Quiet

theorem ofOutcome (r : Outcome α) : Quiet (Job.ofOutcome r) := .done r

theorem pure (a : α) : Quiet (Pure.pure a : Job α) := .done _

theorem bind {j : Job α} {k : α → Job β} (hj : Quiet j) (hk : ∀ a, Quiet (k a)) : Quiet (j >>= k) := by
  refine Steps.Quiet.bind hj fun r => ?_
  cases r with
  | ok a => exact hk a
  | error f => exact .done _

theorem attempt {j : Job α} (hj : Quiet j) : Quiet (Job.attempt j) := Steps.Quiet.bind hj fun _ => .done _

theorem ask {database : String} {c : Call} (leaves : ∀ w : World, w.SameStores (w.perform database c).2) :
    Quiet (Job.ask database c) := Steps.Quiet.ask leaves fun _ => .done _

theorem twin {j : Job α} (hj : Quiet j) {w : World} (hw : w.Still) : Twin w (w.runJob j).2 :=
  Steps.Quiet.twin hj hw

/-- What follows a job that leaves the stores yields what it yields without it. -/
theorem runJob_bind {j : Job α} (hj : Quiet j) (k : α → Job β) {w : World} (hw : w.Still) :
    (w.runJob (j >>= k)).1 = (w.runJob j).1 >>= fun a => (w.runJob (k a)).1 := by
  cases ha : (w.runJob j).1 with
  | error f => rw [runJob_bind_error ha]; rfl
  | ok a =>
      rw [runJob_bind_ok ha, (runJob_twin (k a) (hj.twin hw) hw).1]
      rfl

end Quiet

/-! ## Jobs side by side -/

/-- A turn of jobs that run side by side: one of them sends its next call, or is looked at. -/
inductive Turn
  | send (place : Nat)
  | look (place : Nat)
  deriving DecidableEq, Repr, Inhabited

/-- Runs jobs side by side: they take the given turns, and then each runs to its end. A job that has failed
ends them all when it is looked at. -/
def joined : List Turn → List (Job α) → Job (List α)
  | [], jobs => jobs.mapM id
  | .send place :: turns, jobs =>
    match jobs[place]? with
    | some j => ExceptT.mk (j.run.poll.bind fun rest => (joined turns (jobs.set place (ExceptT.mk rest))).run)
    | none => joined turns jobs
  | .look place :: turns, jobs =>
    match jobs[place]?.map ExceptT.run with
    | some (.done (.error f)) => throw f
    | _ => joined turns jobs

end Job

namespace World

variable {α : Type}

/-- What jobs yield, each of them alone; nothing if one fails. -/
def alone (w : World) (jobs : List (Job α)) : Option (List α) :=
  jobs.mapM fun j => (w.runJob j).1.toOption

theorem alone_eq (w : World) (jobs : List (Job α)) :
    w.alone jobs = (jobs.map fun j => (w.runJob j).1.toOption).mapM id := by
  rw [List.mapM_map]
  rfl

theorem alone_congr {β : Type} {w w' : World} {f : β → Job α} {g : β → Job α} {l : List β}
    (h : ∀ b ∈ l, (w.runJob (f b)).1.toOption = (w'.runJob (g b)).1.toOption) :
    w.alone (l.map f) = w'.alone (l.map g) := by
  rw [alone_eq, alone_eq, List.map_map, List.map_map]
  exact congrArg (List.mapM id) (List.map_congr_left h)

theorem alone_twin {w w' : World} (h : Twin w w') (hw : w.Still) (jobs : List (Job α)) :
    w'.alone jobs = w.alone jobs := by
  have hsame : w'.alone (jobs.map id) = w.alone (jobs.map id) :=
    alone_congr fun j _ => congrArg Except.toOption (runJob_twin j h hw).1
  rwa [List.map_id] at hsame

theorem alone_cons (w : World) (j : Job α) (jobs : List (Job α)) :
    w.alone (j :: jobs) = (w.runJob j).1.toOption.bind fun a => (w.alone jobs).map (a :: ·) := by
  rw [alone, List.mapM_cons]
  rcases (w.runJob j).1.toOption with _ | a
  · rfl
  · show (w.alone jobs).bind _ = _
    cases w.alone jobs <;> rfl

/-- Where one job fails, there is nothing. -/
theorem alone_eq_none {w : World} {jobs : List (Job α)} {j : Job α} (hj : j ∈ jobs) {f : Failure}
    (hf : (w.runJob j).1 = .error f) : w.alone jobs = none := by
  induction jobs with
  | nil => cases hj
  | cons x rest ih =>
      rw [alone_cons]
      rcases List.mem_cons.mp hj with rfl | hrest
      · rw [hf]
        rfl
      · rw [ih hrest]
        cases (w.runJob x).1.toOption <;> rfl

/-- Jobs of which one is replaced by one that yields the same yield the same. -/
theorem alone_set {w w' : World} (h : Twin w w') (hw : w.Still) {jobs : List (Job α)} {place : Nat} {j j' : Job α}
    (hj : jobs[place]? = some j) (hsame : (w'.runJob j').1.toOption = (w.runJob j).1.toOption) :
    w'.alone (jobs.set place j') = w.alone jobs := by
  rw [← alone_twin h hw, alone_eq, alone_eq, List.map_set, hsame,
    ← congrArg Except.toOption (runJob_twin j h hw).1]
  congr 1
  refine List.ext_getElem? fun i => ?_
  rw [List.getElem?_set]
  split
  · rename_i hi
    subst hi
    rw [List.getElem?_map, hj]
    split
    · rfl
    · rename_i hlen
      rw [List.length_map] at hlen
      exact absurd (List.getElem?_eq_some_iff.mp hj).1 hlen
  · rfl

end World

namespace Job

open World

variable {α β γ : Type}

/-- A job leaves the stores and yields what some jobs yield alone, or fails where one of them does. -/
def Collects (jobs : List (Job α)) (all : Job (List α)) : Prop :=
  ∀ w : World, w.Still → Twin w (w.runJob all).2 ∧ (w.runJob all).1.toOption = w.alone jobs

/-- A job leaves the stores, and the jobs that are left after it yield what some jobs yield alone; if it
fails, one of these does. -/
def LeadsTo (jobs : List (Job α)) (left : β → List (Job α)) (j : Job β) : Prop :=
  ∀ w : World, w.Still → Twin w (w.runJob j).2 ∧
    ((w.runJob j).1.toOption.bind fun b => w.alone (left b)) = w.alone jobs

theorem LeadsTo.throw {jobs : List (Job α)} {left : β → List (Job α)} {f : Failure}
    (h : ∀ w : World, w.alone jobs = none) : LeadsTo jobs left (MonadExcept.throw f) :=
  fun w _ => ⟨.refl w, (h w).symm⟩

theorem LeadsTo.bind {jobs : List (Job α)} {left : β → List (Job α)} {left' : γ → List (Job α)} {j : Job β}
    {P : β → Prop} {k : β → Job γ} (hj : LeadsTo jobs left j) (hP : Returns P j)
    (hk : ∀ b, P b → LeadsTo (left b) left' (k b)) : LeadsTo jobs left' (j >>= k) := by
  intro w hw
  obtain ⟨htwin, hyields⟩ := hj w hw
  cases hb : (w.runJob j).1 with
  | error f =>
      rw [hb] at hyields
      rw [runJob_bind_error hb]
      exact ⟨htwin, hyields⟩
  | ok b =>
      obtain ⟨hrest, hleft⟩ := hk b (hP w b hb) _ (htwin.toAlike.still hw)
      rw [hb] at hyields
      rw [runJob_bind_ok hb, ← hyields]
      simp only [alone_twin htwin hw] at hleft
      exact ⟨htwin.trans hrest, hleft⟩

/-- A job that leads to finished ones collects. -/
theorem LeadsTo.collects {jobs : List (Job α)} {j : Job (List α)}
    (h : LeadsTo jobs (List.map fun a => Pure.pure a) j) : Collects jobs j := by
  have hdone : ∀ (w : World) (as : List α), w.alone (as.map fun a => Pure.pure a) = some as := by
    intro w as
    induction as with
    | nil => rfl
    | cons a rest ih =>
        rw [List.map_cons, alone_cons, ih]
        rfl
  intro w hw
  obtain ⟨htwin, hyields⟩ := h w hw
  refine ⟨htwin, ?_⟩
  rw [← hyields]
  cases (w.runJob j).1 with
  | error f => rfl
  | ok as => exact (hdone w as).symm

/-- Some jobs, run one after another, lead to what is left of those that begin with them. -/
theorem leadsTo_mapM {f : β → Job γ} {g : β → Job α} {k : γ → Job α} {l : List β}
    (h : ∀ b ∈ l, Quiet (f b)) (hsame : ∀ b ∈ l, Same (g b) (f b >>= k)) :
    LeadsTo (l.map g) (List.map k) (l.mapM f) := by
  induction l with
  | nil => exact fun w _ => ⟨.refl w, rfl⟩
  | cons b rest ih =>
      intro w hw
      have hfirst := (h b List.mem_cons_self).twin hw
      obtain ⟨hrest, hyields⟩ := ih (fun x hx => h x (List.mem_cons_of_mem _ hx))
        (fun x hx => hsame x (List.mem_cons_of_mem _ hx)) _ (hfirst.toAlike.still hw)
      simp only [alone_twin hfirst hw] at hyields
      rw [List.mapM_cons, List.map_cons, alone_cons, ← hyields, hsame b List.mem_cons_self w]
      cases hb : (w.runJob (f b)).1 with
      | error e =>
          rw [runJob_bind_error hb, runJob_bind_error hb]
          exact ⟨hfirst, rfl⟩
      | ok c =>
          rw [runJob_bind_ok hb, runJob_bind_ok hb, (runJob_twin (k c) hfirst hw).1]
          cases hcs : ((w.runJob (f b)).2.runJob (rest.mapM f)).1 with
          | error e =>
              rw [runJob_bind_error hcs]
              refine ⟨hfirst.trans hrest, ?_⟩
              cases (w.runJob (k c)).1 <;> rfl
          | ok cs =>
              rw [runJob_bind_ok hcs]
              exact ⟨hfirst.trans hrest, alone_cons w (k c) (cs.map k)⟩

/-- Some results, one after another, lead to what is left of the jobs that begin with them. -/
theorem leadsTo_ofOutcome {f : β → Outcome γ} {g : β → Job α} {k : γ → Job α} {l : List β}
    (hsame : ∀ b ∈ l, Same (g b) (Job.ofOutcome (f b) >>= k)) :
    LeadsTo (l.map g) (List.map k) (Job.ofOutcome (l.mapM f)) := by
  have hall : ∀ l : List β, l.mapM (fun b => Job.ofOutcome (f b)) = Job.ofOutcome (l.mapM f) := by
    intro l
    induction l with
    | nil => rfl
    | cons b rest ih =>
        rw [List.mapM_cons, List.mapM_cons, ih]
        cases f b with
        | error e => rfl
        | ok c => cases rest.mapM f <;> rfl
  rw [← hall]
  exact leadsTo_mapM (fun b _ => .ofOutcome _) hsame

theorem collects_mapM {f : β → Job α} {l : List β} (h : ∀ b ∈ l, Quiet (f b)) :
    Collects (l.map f) (l.mapM f) := by
  refine (leadsTo_mapM h fun b _ w => ?_).collects
  rw [bind_pure]

/-- Jobs that leave the stores may take their turns in any order. -/
theorem collects_joined (turns : List Turn) {jobs : List (Job α)} (h : ∀ j ∈ jobs, Quiet j) :
    Collects jobs (joined turns jobs) := by
  induction turns generalizing jobs with
  | nil =>
      have hall := collects_mapM (f := id) h
      rwa [List.map_id] at hall
  | cons turn turns ih =>
      cases turn with
      | send place =>
          rw [joined]
          split
          · -- The job that sends has left of it what yields the same.
            rename_i j hj
            intro w hw
            obtain ⟨hrest, hpoll⟩ := (h j (List.mem_of_getElem? hj)).run_poll w
            have htwin := hpoll.twin hw
            have hjobs : ∀ j' ∈ jobs.set place (ExceptT.mk (run j.run.poll w).1), Quiet j' := by
              intro j' hj'
              rcases List.mem_or_eq_of_mem_set hj' with hold | rfl
              · exact h j' hold
              · exact hrest
            obtain ⟨hleft, hyields⟩ := ih hjobs _ (htwin.toAlike.still hw)
            have hrun : w.runJob (ExceptT.mk (j.run.poll.bind fun rest =>
                (joined turns (jobs.set place (ExceptT.mk rest))).run)) =
                  (run j.run.poll w).2.runJob
                    (joined turns (jobs.set place (ExceptT.mk (run j.run.poll w).1))) := run_bind _ _ w
            rw [hrun, hyields]
            refine ⟨htwin.trans hleft, alone_set htwin hw hj ?_⟩
            exact congrArg (fun r => r.1.toOption) (World.run_poll j.run w)
          · exact ih h
      | look place =>
          rw [joined]
          split
          · rename_i f hf
            obtain ⟨j, hj, hdone⟩ := Option.map_eq_some_iff.mp hf
            refine fun w _ => ⟨.refl w, .symm ?_⟩
            refine alone_eq_none (List.mem_of_getElem? hj) (f := f) ?_
            rw [runJob, hdone]
            rfl
          · exact ih h

end Job

end RecordMapper
