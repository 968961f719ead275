import RecordMapper.Proofs.Read.Fetched
import RecordMapper.Proofs.Steps.Transactions
import RecordMapper.Read.Collect

/-!
# Collected links — what holds of every field that is collected

Collecting links asks databases and changes nothing in them. What holds
of a field before its first query, and after one more query of its own
whenever it held before, holds of it in the end, in whatever order the
fields take their turns. A primary key that is a relation collects
nothing, since the rows have no keys yet that could be looked up.
-/

namespace RecordMapper

/-! ## Jobs that change nothing -/

/-- The models and the stores of a world are those of another. -/
structure World.Unchanged (w w' : World) : Prop extends World.SameStores w w' where
  registry : w'.registry = w.registry

theorem World.Unchanged.refl (w : World) : w.Unchanged w := ⟨.refl w, rfl⟩

theorem World.Unchanged.trans {w w' w'' : World} (h : w.Unchanged w') (h' : w'.Unchanged w'') :
    w.Unchanged w'' :=
  { names := h'.names.trans h.names
    stores := fun name => (h'.stores name).trans (h.stores name)
    registry := h'.registry.trans h.registry }

theorem World.Unchanged.store {w w' : World} (h : w.Unchanged w') (name : String) :
    (w'.database name).store = (w.database name).store := (List.cons.inj (h.stores name)).1

theorem World.unchanged_fetch (w : World) (name : String) (qs : Queryset) (columns : List SelectColumn) :
    w.Unchanged (w.perform name (.fetch qs columns)).2 where
  names := names_perform w name _
  stores other := by
    by_cases hn : other = name
    · subst hn
      by_cases hknown : other ∈ w.databases.map Prod.fst
      · rw [database_perform_self hknown]
        rfl
      · rw [perform_unknown hknown]
    · rw [database_perform_ne hn]
  registry := by
    by_cases hknown : name ∈ w.databases.map Prod.fst
    · rw [perform_known hknown]
      rfl
    · rw [perform_unknown hknown]

theorem World.unchanged_composes : Job.Composes World.Unchanged := ⟨.refl, .trans⟩

namespace Job

variable {α β : Type} {R : World → World → Prop} {P : α → Prop} {Q : β → Prop}

/-- A job leads to worlds that `R` relates to the one it runs in, and what it yields meets a condition. -/
def Steers (R : World → World → Prop) (P : α → Prop) (j : Job α) : Prop :=
  ∀ w : World, R w (w.runJob j).2 ∧ ∀ a, (w.runJob j).1 = .ok a → P a

namespace Steers

theorem imp {j : Job α} {P' : α → Prop} (h : Steers R P j) (himp : ∀ a, P a → P' a) : Steers R P' j :=
  fun w => ⟨(h w).1, fun a ha => himp a ((h w).2 a ha)⟩

theorem attempt {j : Job α} (h : Steers R P j) :
    Steers R (fun r : Outcome α => ∀ a, r = .ok a → P a) (Job.attempt j) := by
  intro w
  rw [World.runJob_attempt]
  refine ⟨(h w).1, ?_⟩
  rintro _ ⟨⟩
  exact (h w).2

variable (hR : Composes R)
include hR

theorem ofOutcome {r : Outcome α} (h : ∀ a, r = .ok a → P a) : Steers R P (Job.ofOutcome r) :=
  fun w => ⟨hR.refl w, h⟩

theorem pure {a : α} (h : P a) : Steers R P (Pure.pure a : Job α) := by
  refine fun w => ⟨hR.refl w, ?_⟩
  rintro _ ⟨⟩
  exact h

theorem throw (f : Failure) : Steers R P (MonadExcept.throw f : Job α) := fun w => ⟨hR.refl w, by rintro _ ⟨⟩⟩

theorem bind {j : Job α} {k : α → Job β} (hj : Steers R P j) (hk : ∀ a, P a → Steers R Q (k a)) :
    Steers R Q (j >>= k) := by
  intro w
  obtain ⟨hsame, hP⟩ := hj w
  rw [World.runJob_bind]
  split
  · rename_i a ha
    obtain ⟨hsame', hQ⟩ := hk a (hP a ha) (w.runJob j).2
    exact ⟨hR.trans hsame hsame', hQ⟩
  · exact ⟨hsame, by rintro _ ⟨⟩⟩

theorem mapM {f : α → Job β} {l : List α} (h : ∀ a ∈ l, Steers R Q (f a)) :
    Steers R (fun bs => ∀ b ∈ bs, Q b) (l.mapM f) := by
  induction l with
  | nil => exact pure hR (by simp)
  | cons a rest ih =>
      rw [List.mapM_cons]
      refine bind hR (h a List.mem_cons_self) fun b hb => ?_
      refine bind hR (ih fun x hx => h x (List.mem_cons_of_mem _ hx)) fun bs hbs => ?_
      exact pure hR (List.forall_mem_cons.mpr ⟨hb, hbs⟩)

end Steers

/-- A job changes nothing, and what it yields meets a condition. -/
def Yields (P : α → Prop) (j : Job α) : Prop :=
  ∀ w : World, w.Unchanged (w.runJob j).2 ∧ ∀ a, (w.runJob j).1 = .ok a → P a

namespace Yields

theorem ofOutcome {r : Outcome α} (h : ∀ a, r = .ok a → P a) : Yields P (Job.ofOutcome r) :=
  Steers.ofOutcome World.unchanged_composes h

theorem pure {a : α} (h : P a) : Yields P (Pure.pure a : Job α) := Steers.pure World.unchanged_composes h

theorem bind {j : Job α} {k : α → Job β} (hj : Yields P j) (hk : ∀ a, P a → Yields Q (k a)) :
    Yields Q (j >>= k) :=
  Steers.bind World.unchanged_composes hj hk

theorem attempt {j : Job α} (h : Yields P j) :
    Yields (fun r : Outcome α => ∀ a, r = .ok a → P a) (Job.attempt j) :=
  Steers.attempt h

theorem imp {j : Job α} {P' : α → Prop} (h : Yields P j) (himp : ∀ a, P a → P' a) : Yields P' j :=
  Steers.imp h himp

end Yields

end Job

/-! ## Fetching -/

variable {app : Application} {ctx : Context}

/-- Records are fetched from the store of the database that is meant; of nothing there are none. -/
theorem Application.runJob_fetch (app : Application) (ctx : Context) (qs : Queryset)
    (columns : List SelectColumn) (w : World) :
    w.Unchanged (w.runJob (app.fetch ctx qs columns)).2 ∧
      ∀ rows, (w.runJob (app.fetch ctx qs columns)).1 = .ok rows → qs.isNone ∧ rows = [] ∨
        ∃ name, app.databaseOf ctx qs = .ok name ∧ name ∈ w.databases.map Prod.fst ∧
          (w.database name).store.fetch w.registry qs columns = .ok rows := by
  rw [Application.fetch, World.runJob_bind, World.runJob_ofOutcome]
  simp only
  split
  · rename_i name hdatabase
    split
    · rename_i hnone
      refine ⟨.refl w, ?_⟩
      rintro _ ⟨⟩
      exact .inl ⟨hnone, rfl⟩
    · rename_i hnone
      have hjob : w.runJob (Job.fetch name qs columns) = w.perform name (.fetch qs columns) := rfl
      rw [hjob]
      refine ⟨w.unchanged_fetch name qs columns, fun rows hrows => .inr ⟨name, hdatabase, ?_⟩⟩
      by_cases hknown : name ∈ w.databases.map Prod.fst
      · rw [World.perform_known hknown, Database.perform] at hrows
        have hfetch : (if qs.isNone then .ok [] else
            (w.database name).store.fetch w.registry qs columns : Outcome (List Record)) = .ok rows := hrows
        exact ⟨hknown, (if_neg hnone).symm.trans hfetch⟩
      · rw [World.perform_unknown hknown] at hrows
        cases hrows
  · exact ⟨.refl w, by rintro _ ⟨⟩⟩

/-- Of nothing no records are fetched. -/
theorem Application.runJob_fetch_of_isNone {name : String} {qs : Queryset} (hname : app.databaseOf ctx qs = .ok name)
    (hnone : qs.isNone) (columns : List SelectColumn) (w : World) :
    w.runJob (app.fetch ctx qs columns) = (.ok [], w) := by
  rw [Application.fetch, World.runJob_ofOutcome_bind hname, if_pos hnone]
  rfl

/-- What the store of a database that is there can answer is fetched. -/
theorem Application.runJob_fetch_of_store {name : String} {qs : Queryset} {columns : List SelectColumn} {w : World}
    {records : List Record} (hname : app.databaseOf ctx qs = .ok name) (hknown : name ∈ w.databases.map Prod.fst)
    (hnone : ¬qs.isNone) (hfetch : (w.database name).store.fetch w.registry qs columns = .ok records) :
    (w.runJob (app.fetch ctx qs columns)).1 = .ok records := by
  have hrun : w.runJob (Job.fetch name qs columns) = w.perform name (.fetch qs columns) := rfl
  rw [Application.fetch, World.runJob_ofOutcome_bind hname, if_neg hnone, hrun, World.perform_known hknown,
    Database.perform]
  exact (if_neg hnone).trans hfetch

namespace Collecting

variable {owners : List Value} {fields : List SchemaField} {R : World → World → Prop} {P : Collecting → Prop}

/-! ## Turns -/

section Turns

variable (hR : Job.Composes R) (hstart : ∀ f ∈ fields, ∀ c, start app ctx owners f = .ok c → P c)
  (hadvance : ∀ c, P c → Job.Steers R P (c.advance app ctx))

include hR hadvance

theorem steers_advanceBy (n : Nat) {c : Collecting} (hc : P c) : Job.Steers R P (c.advanceBy app ctx n) := by
  induction n generalizing c with
  | zero => exact .pure hR hc
  | succ n ih => exact (hadvance c hc).bind hR fun _ => ih

theorem steers_rounds (n : Nat) {cs : List Collecting} (hcs : ∀ c ∈ cs, P c) :
    Job.Steers R (fun cs => ∀ c ∈ cs, P c) (rounds app ctx n cs) := by
  induction n generalizing cs with
  | zero => exact .pure hR hcs
  | succ n ih => exact (Job.Steers.mapM hR fun c hc => hadvance c (hcs c hc)).bind hR fun _ => ih

/-- The fields of a list that have not failed meet the condition. -/
theorem steers_lap (places : List Nat) {cs : List (Outcome Collecting)} (hcs : ∀ c, .ok c ∈ cs → P c) :
    Job.Steers R (fun cs => ∀ c, .ok c ∈ cs → P c) (lap app ctx places cs) := by
  induction places generalizing cs with
  | nil => exact .pure hR hcs
  | cons i rest ih =>
      rw [lap]
      split
      · rename_i c hc
        refine (hadvance c (hcs c (List.mem_of_getElem? hc))).attempt.bind hR fun r hr => ?_
        dsimp only
        split
        · exact .throw hR _
        · refine ih fun c' hc' => ?_
          rcases List.mem_or_eq_of_mem_set hc' with hc' | hc'
          · exact hcs c' hc'
          · exact hr c' hc'.symm
      · exact ih hcs

theorem steers_laps (n : Nat) (places : List Nat) {cs : List (Outcome Collecting)}
    (hcs : ∀ c, .ok c ∈ cs → P c) :
    Job.Steers R (fun cs => ∀ c, .ok c ∈ cs → P c) (laps app ctx n places cs) := by
  induction n generalizing places cs with
  | zero => exact .pure hR hcs
  | succ n ih => exact (steers_lap hR hadvance places hcs).bind hR fun _ => ih _

include hstart

theorem steers_inTurn : Job.Steers R (fun cs => ∀ c ∈ cs, P c) (inTurn app ctx owners fields) :=
  Job.Steers.mapM hR fun f hf => (Job.Steers.ofOutcome hR (hstart f hf)).bind hR fun _ =>
    steers_advanceBy hR hadvance _

theorem steers_sideBySide : Job.Steers R (fun cs => ∀ c ∈ cs, P c) (sideBySide app ctx owners fields) := by
  rw [sideBySide]
  split
  · refine (Job.Steers.ofOutcome hR (P := fun cs => ∀ c ∈ cs, P c) fun cs hcs c hc => ?_).bind hR fun _ =>
      steers_rounds hR hadvance _
    obtain ⟨f, hf, hc⟩ := Outcome.mapM_mem hcs hc
    exact hstart f hf c hc
  · rw [inLaps]
    split
    · exact .throw hR _
    · refine (steers_laps hR hadvance _ _ fun c hc => ?_).bind hR fun cs hcs =>
        .ofOutcome hR fun cs' hcs' c hc => ?_
      · obtain ⟨f, hf, hc⟩ := List.mem_map.mp hc
        exact hstart f hf c hc
      · obtain ⟨r, hr, rfl⟩ := Outcome.mapM_mem hcs' hc
        exact hcs c hr

end Turns

section Yields

variable (hstart : ∀ f ∈ fields, ∀ c, start app ctx owners f = .ok c → P c)
  (hadvance : ∀ c, P c → Job.Yields P (c.advance app ctx))
include hstart hadvance

theorem yields_inTurn : Job.Yields (fun cs => ∀ c ∈ cs, P c) (inTurn app ctx owners fields) :=
  steers_inTurn World.unchanged_composes hstart hadvance

theorem yields_sideBySide : Job.Yields (fun cs => ∀ c ∈ cs, P c) (sideBySide app ctx owners fields) :=
  steers_sideBySide World.unchanged_composes hstart hadvance

end Yields

/-! ## The links of a field -/

variable {f : SchemaField} {steps : List LinkStep} {links : Links} {c : Collecting}

/-- Settling stays with its field and among its steps, and finds nothing if no step has links of its
own. -/
theorem settle_spec (h : settle app ctx f steps links = .ok c) :
    c.field = f ∧ (∀ step ∈ c.todo, step ∈ steps) ∧
      ((∀ step ∈ steps, step.links [] = []) → c.links = links) := by
  induction steps generalizing links with
  | nil =>
      cases h
      exact ⟨rfl, by simp, fun _ => rfl⟩
  | cons step rest ih =>
      have hrest : settle app ctx f rest (links.extend (step.links [])) = .ok c →
          c.field = f ∧ (∀ step' ∈ c.todo, step' ∈ step :: rest) ∧
            ((∀ step' ∈ step :: rest, step'.links [] = []) → c.links = links) := by
        intro h
        obtain ⟨hfield, htodo, hlinks⟩ := ih h
        refine ⟨hfield, fun step' hstep => List.mem_cons_of_mem step (htodo step' hstep), fun hnone => ?_⟩
        rw [hlinks fun step' hstep => hnone step' (List.mem_cons_of_mem step hstep),
          hnone step List.mem_cons_self]
        rfl
      rw [settle] at h
      split at h
      · exact hrest h
      · obtain ⟨_, _, h⟩ := Outcome.bind_eq_ok.mp h
        split at h
        · exact hrest h
        · cases h
          exact ⟨rfl, fun _ hstep => hstep, fun _ => rfl⟩

/-- What a field is recovered to is what it came to, or it has nothing. -/
theorem recovered_eq_ok {r : Outcome Collecting} (h : recovered ctx f r = .ok c) :
    r = .ok c ∨ c = ⟨f, [], []⟩ := by
  unfold recovered at h
  split at h
  · exact .inl h
  · split at h
    · cases h
    · cases h
      exact .inr rfl

theorem field_of_start (h : start app ctx owners f = .ok c) : c.field = f := by
  rcases recovered_eq_ok h with h | rfl
  · obtain ⟨steps, _, h⟩ := Outcome.bind_eq_ok.mp h
    exact (settle_spec h).1
  · rfl

/-! ## Links of a key without keys -/

/-- Whether a step looks for rows that lead back to nothing but nulls. -/
def LinksNulls (step : LinkStep) : Prop :=
  ∃ (target : Model) (link value : String) (vs : List Value), (∀ v ∈ vs, v = .null) ∧
    step = .joined vs ((Queryset.all target).filter (.test link (.oneOf vs))) link value

theorem LinksNulls.links_nil {step : LinkStep} (h : LinksNulls step) : step.links [] = [] := by
  obtain ⟨_, _, _, _, _, rfl⟩ := h
  rfl

/-- A step that looks for nulls fetches no rows. -/
theorem yields_query (step : LinkStep) :
    Job.Yields (fun rows => LinksNulls step → rows = []) (match step.query? with
      | some (qs, columns) => app.fetch ctx qs columns
      | none => return []) := by
  intro w
  cases hquery : step.query? with
  | none => exact ⟨.refl w, fun rows h _ => (Except.ok.inj h).symm⟩
  | some query =>
      obtain ⟨hsame, hrows⟩ := app.runJob_fetch ctx query.1 query.2 w
      refine ⟨hsame, fun rows h hnulls => ?_⟩
      obtain ⟨target, link, value, vs, hnull, rfl⟩ := hnulls
      cases hquery
      rcases hrows rows h with ⟨_, hnil⟩ | ⟨name, _, _, hfetch⟩
      · exact hnil
      · rw [List.eq_nil_iff_forall_not_mem]
        intro row hrow
        obtain ⟨pks, hpks, pk, hpk, _⟩ := Store.exists_of_mem_fetch hfetch hrow
        rw [Store.select_oneOf_nulls hnull hpks] at hpk
        cases hpk

/-- The field collects for nulls and has found nothing. -/
def FindsNothing (c : Collecting) : Prop := c.links = [] ∧ ∀ step ∈ c.todo, LinksNulls step

theorem findsNothing_start {target : Model} {link value : String}
    (hkind : f.kind = .isolated (.relation target link value)) (hnull : ∀ v ∈ owners, v = .null)
    (h : start app ctx owners f = .ok c) : c.FindsNothing := by
  rcases recovered_eq_ok h with h | rfl
  · obtain ⟨steps, hsteps, h⟩ := Outcome.bind_eq_ok.mp h
    rw [SchemaField.linkSteps, hkind] at hsteps
    cases hsteps
    have hall : ∀ step ∈ [LinkStep.joined owners
        ((Queryset.all target).filter (.test link (.oneOf owners))) link value], LinksNulls step := by
      intro step hstep
      exact ⟨target, link, value, owners, hnull, List.mem_singleton.mp hstep⟩
    obtain ⟨_, htodo, hlinks⟩ := settle_spec h
    exact ⟨hlinks fun step hstep => (hall step hstep).links_nil, fun step hstep => hall step (htodo step hstep)⟩
  · exact ⟨rfl, by simp⟩

/-- After one more query a field is still itself, and has still found nothing if it looked for nulls. -/
theorem yields_advance (c : Collecting) :
    Job.Yields (fun c' => c'.field = c.field ∧ (c.FindsNothing → c'.FindsNothing)) (c.advance app ctx) := by
  obtain ⟨f, todo, links⟩ := c
  cases todo with
  | nil => exact .pure ⟨rfl, id⟩
  | cons step rest =>
      refine (yields_query step).attempt.bind fun fetched hfetched => .ofOutcome fun c' hc' => ?_
      rcases recovered_eq_ok hc' with hc' | rfl
      · obtain ⟨rows, hrows, hc'⟩ := Outcome.bind_eq_ok.mp hc'
        obtain ⟨hfield, htodo, hlinks⟩ := settle_spec hc'
        refine ⟨hfield, fun ⟨hnone, hall⟩ => ⟨?_, fun step' hstep => ?_⟩⟩
        · have hstep := hall step List.mem_cons_self
          rw [hlinks fun step' hstep => (hall step' (List.mem_cons_of_mem step hstep)).links_nil,
            hfetched rows hrows hstep, hstep.links_nil]
          exact hnone
        · exact hall step' (List.mem_cons_of_mem step (htodo step' hstep))
      · exact ⟨rfl, fun _ => ⟨rfl, by simp⟩⟩

end Collecting

end RecordMapper
