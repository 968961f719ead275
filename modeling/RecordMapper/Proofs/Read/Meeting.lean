import RecordMapper.Proofs.Read.SideBySide
import RecordMapper.Proofs.Read.Journal
import RecordMapper.Proofs.Steps.Twins

/-!
# Meeting reads — what holds of the failures of a read

A read fails as one of its parts does. If of every failure of a part
some property holds, and it is kept when a failure is reported for a
field, it holds of the failures of the whole: in whatever order the
links of fields are collected (`meets_collect`), and when the fields are
resolved one after another (`meets_resolveRows`).
-/

namespace RecordMapper

open World

variable {α β : Type} {reg : Registry} {P : Failure → Prop}

/-- A database that is meant is known, or that is the failure. -/
theorem Application.meets_databaseOf {app : Application} {ctx : Context} {qs : Queryset}
    (hunknown : ∀ name, P (.unknownDatabase name)) :
    Outcome.Meets (fun _ => True) P (app.databaseOf ctx qs) := by
  rw [databaseOf, Connections.resolve]
  split
  · exact trivial
  · exact hunknown _

/-- A query fails as the store does, or for an unknown database. -/
theorem Application.meets_fetch {app : Application} {ctx : Context} {qs : Queryset} {columns : List SelectColumn}
    {Q : List Record → Prop} (hunknown : ∀ name, P (.unknownDatabase name)) (hnil : Q [])
    (h : qs.isNone = false → ∀ st, Outcome.Meets Q P (Store.fetch reg st qs columns)) :
    Job.Meets reg Q P (app.fetch ctx qs columns) := by
  refine (Job.Meets.ofOutcome (meets_databaseOf hunknown)).bind fun database _ => ?_
  split
  · exact .pure hnil
  · rename_i hnone
    have hnone := Bool.eq_false_iff.mpr hnone
    exact .fetch (hunknown database) (h hnone) hnone

/-- A failure that is reported for a field is wrapped by it. -/
theorem SchemaField.eq_of_report {f : SchemaField} {ctx : Context} {e e' : Failure} (h : f.report? ctx e = some e') :
    e' = .isolatedField f.name e := by
  rw [report?] at h
  split at h
  · cases h
  · exact (Option.some.inj h).symm

namespace Collecting

variable {app : Application} {ctx : Context} {owners : List Value} {fields : List SchemaField}
  {Q : Collecting → Prop}

theorem meets_recovered {f : SchemaField} {r : Outcome Collecting}
    (hreport : ∀ e, P e → P (.isolatedField f.name e)) (hnone : Q ⟨f, [], []⟩)
    (h : Outcome.Meets Q P r) : Outcome.Meets Q P (recovered ctx f r) := by
  unfold recovered
  split
  · exact h
  · rename_i e
    split
    · rename_i e' hreported
      exact SchemaField.eq_of_report hreported ▸ hreport e h
    · exact hnone

section Turns

variable (hstart : ∀ f ∈ fields, Outcome.Meets Q P (start app ctx owners f))
  (hadvance : ∀ c, Q c → Job.Meets reg Q P (c.advance app ctx))

include hadvance

theorem meets_advanceBy (n : Nat) {c : Collecting} (hc : Q c) : Job.Meets reg Q P (c.advanceBy app ctx n) := by
  induction n generalizing c with
  | zero => exact .pure hc
  | succ n ih => exact (hadvance c hc).bind fun _ => ih

theorem meets_rounds (n : Nat) {cs : List Collecting} (hcs : ∀ c ∈ cs, Q c) :
    Job.Meets reg (fun cs => ∀ c ∈ cs, Q c) P (rounds app ctx n cs) := by
  induction n generalizing cs with
  | zero => exact .pure hcs
  | succ n ih => exact (Job.Meets.mapM fun c hc => hadvance c (hcs c hc)).bind fun _ => ih

theorem meets_lap (places : List Nat) {cs : List (Outcome Collecting)} (hcs : ∀ r ∈ cs, Outcome.Meets Q P r) :
    Job.Meets reg (fun cs => ∀ r ∈ cs, Outcome.Meets Q P r) P (lap app ctx places cs) := by
  induction places generalizing cs with
  | nil => exact .pure hcs
  | cons i rest ih =>
      rw [lap]
      split
      · rename_i c hc
        refine (hadvance c (hcs _ (List.mem_of_getElem? hc))).attempt.bind fun r hr => ?_
        have hset : ∀ r' ∈ cs.set i r, Outcome.Meets Q P r' := fun r' hr' => by
          rcases List.mem_or_eq_of_mem_set hr' with hr' | rfl
          · exact hcs r' hr'
          · exact hr
        dsimp only
        split
        · rename_i e hdue
          exact .throw (hset _ (error_mem_of_due hdue))
        · exact ih hset
      · exact ih hcs

theorem meets_laps (n : Nat) (places : List Nat) {cs : List (Outcome Collecting)}
    (hcs : ∀ r ∈ cs, Outcome.Meets Q P r) :
    Job.Meets reg (fun cs => ∀ r ∈ cs, Outcome.Meets Q P r) P (laps app ctx n places cs) := by
  induction n generalizing places cs with
  | zero => exact .pure hcs
  | succ n ih => exact (meets_lap hadvance places hcs).bind fun _ => ih _

include hstart

theorem meets_inTurn : Job.Meets reg (fun cs => ∀ c ∈ cs, Q c) P (inTurn app ctx owners fields) :=
  Job.Meets.mapM fun f hf => (Job.Meets.ofOutcome (hstart f hf)).bind fun _ => meets_advanceBy hadvance _

theorem meets_sideBySide : Job.Meets reg (fun cs => ∀ c ∈ cs, Q c) P (sideBySide app ctx owners fields) := by
  rw [sideBySide]
  split
  · exact (Job.Meets.ofOutcome (Outcome.Meets.mapM hstart)).bind fun _ => meets_rounds hadvance _
  · have hstarts : ∀ r ∈ fields.map (start app ctx owners), Outcome.Meets Q P r := by
      intro r hr
      obtain ⟨f, hf, rfl⟩ := List.mem_map.mp hr
      exact hstart f hf
    rw [inLaps]
    split
    · rename_i e hdue
      exact .throw (hstarts _ (error_mem_of_due hdue))
    · exact (meets_laps hadvance _ _ hstarts).bind fun cs hcs => .ofOutcome (Outcome.Meets.mapM hcs)

theorem meets_collect (together : Bool) {plan : ReadPlan} (hplan : plan.isolated = fields) :
    Job.Meets reg (fun cs => ∀ c ∈ cs, Q c) P (app.collect together ctx plan owners) := by
  subst hplan
  rw [Application.collect]
  split
  · exact meets_sideBySide hstart hadvance
  · exact meets_inTurn hstart hadvance

end Turns

end Collecting

namespace Reading

/-- In every world of some models, whatever the guard knows, a part of a read comes to a value of which `Q` holds or to
a failure of which `P` holds. -/
def Meets (reg : Registry) (Q : α → Prop) (P : Failure → Prop) (r : Reading α) : Prop :=
  ∀ (g : Guard) (w : World), w.registry = reg → Outcome.Meets Q P (w.run (r.run.run g)).1.1

namespace Meets

variable {Q : α → Prop} {R : β → Prop}

theorem ofJob {j : Job α} (h : Job.Meets reg Q P j) : Meets reg Q P (Reading.ofJob j) := by
  intro g w hreg
  rw [run_ofJob, World.run_bind]
  exact h w hreg

theorem ofOutcome {r : Outcome α} (h : Outcome.Meets Q P r) : Meets reg Q P (Reading.ofOutcome r) :=
  ofJob (.ofOutcome h)

theorem pure {a : α} (h : Q a) : Meets reg Q P (Pure.pure a : Reading α) := fun _ _ _ => h

theorem throw {f : Failure} (h : P f) : Meets reg Q P (MonadExcept.throw f : Reading α) := fun _ _ _ => h

theorem bind {r : Reading α} {k : α → Reading β} (h : Meets reg Q P r) (hk : ∀ a, Q a → Meets reg R P (k a)) :
    Meets reg R P (r >>= k) := by
  intro g w hreg
  have hmeets := h g w hreg
  rw [Reading.run_bind, World.run_bind]
  have hreg' := (registry_run (r.run.run g) w).trans hreg
  generalize World.run (r.run.run g) w = ran at hmeets hreg'
  obtain ⟨⟨outcome, g'⟩, w'⟩ := ran
  cases outcome with
  | ok a => exact hk a hmeets g' w' hreg'
  | error e => exact hmeets

theorem attempt {r : Reading α} (h : Meets reg Q P r) : Meets reg (Outcome.Meets Q P) P (Reading.attempt r) := by
  intro g w hreg
  have hrun : (Reading.attempt r).run.run g = (r.run.run g).bind _ := rfl
  rw [hrun, World.run_bind]
  exact h g w hreg

theorem guard : Meets reg (fun _ => True) P Reading.guard := fun _ _ _ => trivial

theorem record (change : Guard → Guard) : Meets reg (fun _ => True) P (Reading.record change) := fun _ _ _ => trivial

theorem foldlM {step : β → α → Reading β} {l : List α}
    (h : ∀ x ∈ l, ∀ b, R b → Meets reg R P (step b x)) {b : β} (hb : R b) :
    Meets reg R P (l.foldlM step b) := by
  induction l generalizing b with
  | nil => exact pure hb
  | cons x rest ih =>
      rw [List.foldlM_cons]
      exact (h x List.mem_cons_self b hb).bind fun _ hb' => ih (fun y hy => h y (List.mem_cons_of_mem x hy)) hb'

end Meets

section Parts

variable {app : Application} {read : Schema → Source → Context → Reading (List Record)} {s : Schema}
  {ctx : Context} {f : SchemaField} {plan : ReadPlan}

/-- The values of a field are found if its nested schema is, and can be read for any keys. -/
theorem meets_materialize (links : Links)
    (hnested : Outcome.Meets (fun nested => ∀ n, nested = some n →
      ∀ pks, Meets reg (fun _ => True) P (read n (.keys pks) (ctx.derive f.name))) P (app.nested? s f)) :
    Meets reg (fun _ => True) P (materialize app read s ctx f links) := by
  refine (Meets.ofOutcome hnested).bind fun nested hread => ?_
  cases nested with
  | none => exact .pure trivial
  | some nested =>
      refine Meets.guard.bind fun g _ => ?_
      have hlook : ∀ key : GuardKey, Meets reg (fun _ => True) P (do
          let g ← guard
          return f.shape links fun pk => (g.get? key pk).map .map) := fun _ => Meets.guard.bind fun _ _ => .pure trivial
      dsimp only
      split
      · exact (hread nested rfl _).bind fun _ _ => hlook _
      · exact hlook _

theorem meets_resolveField {c : Collecting} (rows : List Record)
    (hreport : ∀ e, P e → P (.isolatedField c.field.name e))
    (h : Meets reg (fun _ => True) P (materialize app read s ctx c.field c.links)) :
    Meets reg (fun _ => True) P (resolveField app read s ctx rows c) := by
  refine h.attempt.bind fun outcome houtcome => ?_
  cases outcome with
  | ok values => exact .pure trivial
  | error e =>
      dsimp only
      split
      · rename_i e' hreported
        exact .throw (SchemaField.eq_of_report hreported ▸ hreport e houtcome)
      · exact .pure trivial

theorem meets_resolveRows {together : Bool} {rows : List Record} {Q : Collecting → Prop}
    (hcollect : ∀ owners, Job.Meets reg (fun cs => ∀ c ∈ cs, Q c) P (app.collect together ctx plan owners))
    (hfield : ∀ c, Q c → ∀ rows, Meets reg (fun _ => True) P (resolveField app read s ctx rows c)) :
    Meets reg (fun _ => True) P (resolveRows app together read s ctx plan rows) := by
  refine (Meets.record _).bind fun _ _ => (Meets.ofJob (hcollect _)).bind fun collected hcollected => ?_
  refine (Meets.foldlM (fun c hc rows _ => hfield c (hcollected c hc) rows) trivial).bind fun rows _ => ?_
  exact (Meets.record _).bind fun _ _ => .pure trivial

end Parts

end Reading

end RecordMapper
