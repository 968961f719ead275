import RecordMapper.Proofs.Outcomes
import RecordMapper.Proofs.Read.Journal

/-!
# Strict — reads that report what fields would pass over

A context can make a read strict: every failure of an isolated field is
then reported, also where the field asks for silence. A strict part that
succeeds has met no failure, so a lenient one does the same: its runs
are `Shared`. Every way of putting parts together keeps that, except
that laps go on beside a field that has failed; what they come to is
shared where no field has failed in the end.
-/

namespace RecordMapper

/-- The context in which the failures of fields are reported throughout, or in which fields may pass over them. -/
def Context.raising (ctx : Context) (raises : Bool) : Context := { ctx with raises := raises }

namespace Job

variable {α β : Type} {P : α → Prop} {Q : β → Prop}

/-- The runs of a job that succeed with a result of some kind are runs of another one. -/
def Shared (P : α → Prop) (j j' : Job α) : Prop :=
  ∀ (w : World) (a : α), (w.runJob j).1 = .ok a → P a → w.runJob j' = w.runJob j

namespace Shared

theorem rfl {j : Job α} : Shared P j j := fun _ _ _ _ => Eq.refl _

theorem ofOutcome {r r' : Outcome α} (h : ∀ a, r = .ok a → P a → r' = .ok a) :
    Shared P (Job.ofOutcome r) (Job.ofOutcome r') := by
  intro w a ha hP
  have hr : r = .ok a := ha
  rw [h a hr hP, hr]

theorem throw {e : Failure} {j : Job α} : Shared P (MonadExcept.throw e : Job α) j := by
  intro w a ha
  cases ha

/-- `P` holds of the first result if `Q` holds of the last one. -/
theorem bindOf {j j' : Job α} {k k' : α → Job β} (h : Shared P j j')
    (hk : ∀ a, P a → Shared Q (k a) (k' a))
    (hback : ∀ a w b, (World.runJob (k a) w).1 = .ok b → Q b → P a) : Shared Q (j >>= k) (j' >>= k') := by
  intro w b hb hQ
  obtain ⟨a, ha, hka⟩ := World.runJob_bind_eq_ok hb
  have hP := hback a _ b hka hQ
  have hsame := h w a ha hP
  rw [World.runJob_bind_ok ha, World.runJob_bind_ok (hsame ▸ ha), hsame]
  exact hk a hP _ b hka hQ

theorem bind {j j' : Job α} {k k' : α → Job β} (h : Shared (fun _ => True) j j')
    (hk : ∀ a, Shared Q (k a) (k' a)) : Shared Q (j >>= k) (j' >>= k') :=
  h.bindOf (fun a _ => hk a) fun _ _ _ _ _ => trivial

theorem attempt {j j' : Job α} (h : Shared (fun _ => True) j j') :
    Shared (fun r : Outcome α => ∃ a, r = .ok a) (Job.attempt j) (Job.attempt j') := by
  intro w r hr hok
  obtain ⟨a, rfl⟩ := hok
  rw [World.runJob_attempt] at hr
  have ha : (w.runJob j).1 = .ok a := Except.ok.inj hr
  rw [World.runJob_attempt, World.runJob_attempt, h w a ha trivial]

theorem mapM {f f' : α → Job β} (h : ∀ a, Shared (fun _ => True) (f a) (f' a)) (l : List α) :
    Shared (fun _ => True) (l.mapM f) (l.mapM f') := by
  induction l with
  | nil => exact rfl
  | cons a rest ih =>
      rw [List.mapM_cons, List.mapM_cons]
      exact bind (h a) fun _ => bind ih fun _ => rfl

end Shared

end Job

theorem SchemaField.report_strict (f : SchemaField) (ctx : Context) (e : Failure) :
    f.report? (ctx.raising true) e = some (.isolatedField f.name e) := by
  simp [report?, Context.raising]

/-! ## Links -/

namespace Collecting

variable {app : Application} {ctx : Context} {raises : Bool} {f : SchemaField}

theorem settle_raising (steps : List LinkStep) (links : Links) :
    settle app (ctx.raising raises) f steps links = settle app ctx f steps links := by
  have hdatabase : ∀ qs, app.databaseOf (ctx.raising raises) qs = app.databaseOf ctx qs := fun _ => rfl
  induction steps generalizing links with
  | nil => rfl
  | cons step rest ih => simp only [settle, ih, hdatabase]

/-- A strict field is recovered from no failure. -/
theorem recovered_strict {r : Outcome Collecting} {c : Collecting}
    (h : recovered (ctx.raising true) f r = .ok c) : r = .ok c := by
  cases r with
  | ok c' => exact h
  | error e =>
      rw [recovered, f.report_strict] at h
      cases h

/-- Where a strict field is recovered, a lenient one is too. -/
theorem recovered_raising {r : Outcome Collecting} {c : Collecting}
    (h : recovered (ctx.raising true) f r = .ok c) : recovered (ctx.raising raises) f r = .ok c := by
  rw [recovered_strict h]
  rfl

theorem start_raising {owners : List Value} {c : Collecting}
    (h : start app (ctx.raising true) owners f = .ok c) : start app (ctx.raising raises) owners f = .ok c := by
  simp only [start, settle_raising] at h ⊢
  exact recovered_raising h

theorem shared_advance (c : Collecting) :
    Job.Shared (fun _ => True) (c.advance app (ctx.raising true)) (c.advance app (ctx.raising raises)) := by
  unfold advance
  split
  · exact .rfl
  · refine .bind .rfl fun fetched => .ofOutcome fun c' hc' _ => ?_
    simp only [settle_raising] at hc' ⊢
    exact recovered_raising hc'

theorem shared_advanceBy (n : Nat) (c : Collecting) :
    Job.Shared (fun _ => True) (advanceBy app (ctx.raising true) n c) (advanceBy app (ctx.raising raises) n c) := by
  induction n generalizing c with
  | zero => exact .rfl
  | succ n ih => exact .bind (shared_advance c) ih

theorem shared_rounds (n : Nat) (cs : List Collecting) :
    Job.Shared (fun _ => True) (rounds app (ctx.raising true) n cs) (rounds app (ctx.raising raises) n cs) := by
  induction n generalizing cs with
  | zero => exact .rfl
  | succ n ih => exact .bind (.mapM shared_advance cs) ih

/-! ## Laps -/

/-- No field has failed. -/
def Unfailed (cs : List (Outcome Collecting)) : Prop := ∀ r ∈ cs, ∃ c, r = .ok c

theorem unfailed_of_mapM {cs : List (Outcome Collecting)} {cs' : List Collecting} (h : cs.mapM id = .ok cs') :
    Unfailed cs := fun _ hr => (Outcome.exists_of_mapM h hr).imp fun _ hc => hc.2

/-- A field that has failed stays failed through a lap. -/
theorem unfailed_of_lap {places : List Nat} {cs cs' : List (Outcome Collecting)} {w : World}
    (h : (w.runJob (lap app ctx places cs)).1 = .ok cs') (hcs' : Unfailed cs') : Unfailed cs := by
  induction places generalizing cs w with
  | nil =>
      cases h
      exact hcs'
  | cons i rest ih =>
      rw [lap] at h
      split at h
      · rename_i c hc
        obtain ⟨r, _, h⟩ := World.runJob_bind_eq_ok h
        dsimp only at h
        split at h
        · cases h
        · have hset := ih h
          intro r' hr'
          obtain ⟨n, hn, rfl⟩ := List.getElem_of_mem hr'
          by_cases hin : i = n
          · subst hin
            exact ⟨c, (List.getElem?_eq_some_iff.mp hc).2⟩
          · have hn' : n < (cs.set i r).length := by rwa [List.length_set]
            have hother : (cs.set i r)[n] = cs[n] := List.getElem_set_ne hin hn'
            exact hset _ (hother ▸ List.getElem_mem hn')
      · exact ih h

theorem unfailed_of_laps {n : Nat} {places : List Nat} {cs cs' : List (Outcome Collecting)} {w : World}
    (h : (w.runJob (laps app ctx n places cs)).1 = .ok cs') (hcs' : Unfailed cs') : Unfailed cs := by
  induction n generalizing places cs w with
  | zero =>
      cases h
      exact hcs'
  | succ n ih =>
      obtain ⟨next, hnext, h⟩ := World.runJob_bind_eq_ok h
      exact unfailed_of_lap hnext (ih h)

theorem shared_lap (places : List Nat) (cs : List (Outcome Collecting)) :
    Job.Shared Unfailed (lap app (ctx.raising true) places cs) (lap app (ctx.raising raises) places cs) := by
  induction places generalizing cs with
  | nil => exact .rfl
  | cons i rest ih =>
      rw [lap, lap]
      split
      · rename_i c hc
        refine (shared_advance c).attempt.bindOf (fun r _ => ?_) fun r w cs' h hcs' => ?_
        · dsimp only
          split
          · exact .throw
          · exact ih _
        · dsimp only at h
          split at h
          · cases h
          · -- The field that has sent its query stands in the list.
            have hi := (List.getElem?_eq_some_iff.mp hc).1
            exact unfailed_of_lap h hcs' r (List.mem_set hi r)
      · exact ih cs

theorem shared_laps (n : Nat) (places : List Nat) (cs : List (Outcome Collecting)) :
    Job.Shared Unfailed (laps app (ctx.raising true) n places cs) (laps app (ctx.raising raises) n places cs) := by
  induction n generalizing places cs with
  | zero => exact .rfl
  | succ n ih => exact (shared_lap places cs).bindOf (fun _ _ => ih _ _) fun _ _ _ h => unfailed_of_laps h

theorem due_eq_none_of_unfailed {cs : List (Outcome Collecting)} (h : Unfailed cs) : due? cs = none := by
  induction cs with
  | nil => rfl
  | cons r rest ih =>
      obtain ⟨c, rfl⟩ := h r List.mem_cons_self
      rw [due?]
      split
      · exact ih fun r hr => h r (List.mem_cons_of_mem _ hr)
      · rfl

theorem shared_inLaps (owners : List Value) (fields : List SchemaField) :
    Job.Shared (fun _ => True) (inLaps app (ctx.raising true) owners fields)
      (inLaps app (ctx.raising raises) owners fields) := by
  have hend : ∀ {w : World} {cs : List (Outcome Collecting)} {b : List Collecting},
      (w.runJob (Job.ofOutcome (cs.mapM id))).1 = .ok b → Unfailed cs := fun h => unfailed_of_mapM h
  intro w b hb _
  -- A strict call that succeeds has had no field fail at its start, so both calls start alike.
  have hstart : Unfailed (fields.map (start app (ctx.raising true) owners)) := by
    unfold inLaps at hb
    dsimp only at hb
    split at hb
    · cases hb
    · obtain ⟨cs, hcs, hb⟩ := World.runJob_bind_eq_ok hb
      exact unfailed_of_laps hcs (hend hb)
  have hsame : fields.map (start app (ctx.raising raises) owners) =
      fields.map (start app (ctx.raising true) owners) := by
    refine List.map_congr_left fun f hf => ?_
    obtain ⟨c, hc⟩ := hstart _ (List.mem_map_of_mem hf)
    rw [hc]
    exact start_raising hc
  revert hb
  unfold inLaps
  rw [hsame]
  dsimp only
  rw [due_eq_none_of_unfailed hstart]
  intro hb
  exact (shared_laps _ _ _).bindOf (fun cs _ => .rfl (P := fun _ => True)) (fun _ _ _ h _ => hend h) w b hb trivial

theorem shared_inTurn (owners : List Value) (fields : List SchemaField) :
    Job.Shared (fun _ => True) (inTurn app (ctx.raising true) owners fields)
      (inTurn app (ctx.raising raises) owners fields) :=
  .mapM (fun _ => .bind (.ofOutcome fun _ h _ => start_raising h) fun c => shared_advanceBy _ c) fields

theorem shared_inRounds (owners : List Value) (fields : List SchemaField) :
    Job.Shared (fun _ => True) (inRounds app (ctx.raising true) owners fields)
      (inRounds app (ctx.raising raises) owners fields) := by
  refine .bind (.ofOutcome fun cs h _ => ?_) fun cs => shared_rounds _ cs
  rw [Outcome.mapM_eq_ok] at h ⊢
  exact h.imp fun _ _ => start_raising

end Collecting

theorem Application.shared_collect (app : Application) (together : Bool) (ctx : Context) (raises : Bool)
    (plan : ReadPlan) (owners : List Value) :
    Job.Shared (fun _ => True) (app.collect together (ctx.raising true) plan owners)
      (app.collect together (ctx.raising raises) plan owners) := by
  have hconcurrent : (ctx.raising true).concurrent = (ctx.raising raises).concurrent := rfl
  unfold collect Collecting.sideBySide
  rw [hconcurrent]
  split
  · split
    · exact Collecting.shared_inRounds owners _
    · exact Collecting.shared_inLaps owners _
  · exact Collecting.shared_inTurn owners _

/-! ## Reads -/

/-- A computation with a state goes on in the state and the world that its first part leaves, unless that
fails. -/
theorem World.run_state_bind {σ α β : Type} (r : ExceptT Failure (StateT σ Steps) α)
    (k : α → ExceptT Failure (StateT σ Steps) β) (w : World) (st : σ) :
    w.run ((r >>= k).run.run st) =
      match w.run (r.run.run st) with
      | ((.ok a, st'), w') => w'.run ((k a).run.run st')
      | ((.error e, st'), w') => ((.error e, st'), w') := by
  show w.run (Steps.bind (r.run.run st) _) = _
  rw [World.run_bind]
  generalize w.run (r.run.run st) = ran
  obtain ⟨⟨outcome, st'⟩, w'⟩ := ran
  cases outcome <;> rfl

theorem World.run_state_bind_ok {σ α β : Type} {r : ExceptT Failure (StateT σ Steps) α} {w w' : World}
    {st st' : σ} {a : α} (h : w.run (r.run.run st) = ((.ok a, st'), w'))
    (k : α → ExceptT Failure (StateT σ Steps) β) : w.run ((r >>= k).run.run st) = w'.run ((k a).run.run st') := by
  rw [run_state_bind, h]

theorem World.run_state_bind_error {σ α β : Type} {r : ExceptT Failure (StateT σ Steps) α} {w : World} {st : σ}
    {e : Failure} (h : (w.run (r.run.run st)).1.1 = .error e) (k : α → ExceptT Failure (StateT σ Steps) β) :
    w.run ((r >>= k).run.run st) = ((.error e, (w.run (r.run.run st)).1.2), (w.run (r.run.run st)).2) := by
  rw [run_state_bind]
  generalize w.run (r.run.run st) = ran at h ⊢
  obtain ⟨⟨outcome, st'⟩, w'⟩ := ran
  obtain rfl : outcome = .error e := h
  rfl

namespace Reading

variable {α β : Type}

theorem run_attempt (r : Reading α) (w : World) (g : Guard) : w.run ((attempt r).run.run g) =
    ((.ok (w.run (r.run.run g)).1.1, (w.run (r.run.run g)).1.2), (w.run (r.run.run g)).2) :=
  World.run_bind (r.run.run g) _ w

/-- The runs of a read that succeed are runs of another one. -/
def Shared (r r' : Reading α) : Prop :=
  ∀ (w : World) (g : Guard) (a : α), (w.run (r.run.run g)).1.1 = .ok a → w.run (r'.run.run g) = w.run (r.run.run g)

namespace Shared

theorem rfl {r : Reading α} : Shared r r := fun _ _ _ _ => Eq.refl _

theorem throw {e : Failure} {r : Reading α} : Shared (MonadExcept.throw e : Reading α) r := by
  intro w g a ha
  cases ha

theorem ofJob {j j' : Job α} (h : Job.Shared (fun _ => True) j j') : Shared (Reading.ofJob j) (Reading.ofJob j') := by
  intro w g a ha
  rw [run_ofJob, World.run_bind] at ha ⊢
  have hsame : w.run j'.run = w.run j.run := h w a ha trivial
  rw [run_ofJob, World.run_bind, hsame]

theorem bind {r r' : Reading α} {k k' : α → Reading β} (h : Shared r r') (hk : ∀ a, Shared (k a) (k' a)) :
    Shared (r >>= k) (r' >>= k') := by
  intro w g b hb
  have hsame := h w g
  rcases hran : w.run (r.run.run g) with ⟨⟨outcome, g'⟩, w'⟩
  rw [hran] at hsame
  cases outcome with
  | ok a =>
      rw [World.run_state_bind_ok hran] at hb
      rw [World.run_state_bind_ok hran, World.run_state_bind_ok (hsame a (Eq.refl _))]
      exact hk a w' g' b hb
  | error e =>
      rw [World.run_state_bind_error (by rw [hran])] at hb
      cases hb

/-- What follows an attempt is shared if it succeeds after a success alone. -/
theorem attempt_bind {r r' : Reading α} {k k' : Outcome α → Reading β} (h : Shared r r')
    (hk : ∀ a, Shared (k (.ok a)) (k' (.ok a))) (hfails : ∀ e, ∃ e', k (.error e) = MonadExcept.throw e') :
    Shared (attempt r >>= k) (attempt r' >>= k') := by
  intro w g b hb
  have hsame := h w g
  rcases hran : w.run (r.run.run g) with ⟨⟨outcome, g'⟩, w'⟩
  rw [hran] at hsame
  have hattempt : w.run ((attempt r).run.run g) = ((.ok outcome, g'), w') := by rw [run_attempt, hran]
  rw [World.run_state_bind_ok hattempt] at hb ⊢
  cases outcome with
  | ok a =>
      have hattempt' : w.run ((attempt r').run.run g) = ((.ok (.ok a), g'), w') := by
        rw [run_attempt, hsame a (Eq.refl _)]
      rw [World.run_state_bind_ok hattempt']
      exact hk a w' g' b hb
  | error e =>
      obtain ⟨e', he'⟩ := hfails e
      rw [he'] at hb
      cases hb

theorem ite {c : Prop} [Decidable c] {r r' k k' : Reading α} (h : Shared r r') (hk : Shared k k') :
    Shared (if c then r else k) (if c then r' else k') := by
  split
  · exact h
  · exact hk

theorem foldlM {f f' : β → α → Reading β} (h : ∀ b a, Shared (f b a) (f' b a)) (l : List α) (b : β) :
    Shared (l.foldlM f b) (l.foldlM f' b) := by
  induction l generalizing b with
  | nil => exact rfl
  | cons a rest ih =>
      rw [List.foldlM_cons, List.foldlM_cons]
      exact bind (h b a) ih

end Shared

section Parts

variable {app : Application} {ctx : Context} {raises : Bool}
  {read read' : Schema → Source → Context → Reading (List Record)}
  (hread : ∀ s src (ctx : Context), Shared (read s src (ctx.raising true)) (read' s src (ctx.raising raises)))
include hread

theorem shared_materialize (s : Schema) (f : SchemaField) (links : Links) :
    Shared (materialize app read s (ctx.raising true) f links)
      (materialize app read' s (ctx.raising raises) f links) := by
  refine .bind .rfl fun nested => ?_
  cases nested with
  | none => exact .rfl
  | some nested =>
      refine .bind .rfl fun g => ?_
      exact .ite (.bind (hread nested _ (ctx.derive f.name)) fun _ => .rfl) .rfl

theorem shared_resolveField (s : Schema) (rows : List Record) (c : Collecting) :
    Shared (resolveField app read s (ctx.raising true) rows c)
      (resolveField app read' s (ctx.raising raises) rows c) := by
  refine .attempt_bind (shared_materialize hread s c.field c.links) (fun _ => .rfl) fun e => ?_
  dsimp only
  rw [c.field.report_strict]
  exact ⟨_, Eq.refl _⟩

end Parts

/-- A strict read that succeeds is the lenient one. -/
theorem shared_rowsWithin (app : Application) (together : Bool) (levels : Nat) (s : Schema) (src : Source)
    (ctx : Context) (raises : Bool) : Shared (rowsWithin app together levels s src (ctx.raising true))
      (rowsWithin app together levels s src (ctx.raising raises)) := by
  induction levels generalizing s src ctx with
  | zero => exact .rfl
  | succ levels ih =>
      rw [rowsWithin_succ, rowsWithin_succ]
      refine .bind .rfl fun prepared => ?_
      cases prepared with
      | none => exact .rfl
      | some p =>
          refine .bind .rfl fun _ => .bind (.ofJob (app.shared_collect together ctx raises p.1 _)) fun collected => ?_
          exact .bind (.foldlM (shared_resolveField ih s) collected p.2) fun _ => .rfl

end Reading

end RecordMapper
