import RecordMapper.Proofs.Read.Journal
import RecordMapper.Proofs.Read.SideBySide

/-!
# Agreement — reads that collect their links in different ways

A read can be told how each of its calls collects the links of isolated
fields (`rowsBy`). Reads whose links are what every field has alone agree:
they yield the same rows or both fail, and they leave the same in the
guard. Where nothing may run side by side they also fail alike. In
particular the queries of a call may come back in any order
(`rowsInTurns`).
-/

namespace RecordMapper

open World

namespace Reading

variable {α β : Type}

/-! ## Reads that agree -/

/-- Outcomes with the same value, if there is one; where failures matter, with the same failure. -/
structure SameOutcome (exact : Prop) (o o' : Outcome α) : Prop where
  value : o'.toOption = o.toOption
  failure : exact → o' = o

/-- What reads yield and what the guard knows afterwards is the same. -/
structure SameAnswer (exact : Prop) (r r' : Outcome α × Guard) : Prop where
  outcome : SameOutcome exact r.1 r'.1
  guard : r'.2 = r.2

/-- Reads that yield the same in twins and leave twins. -/
def Agree (exact : Prop) (r r' : Reading α) : Prop :=
  ∀ (g : Guard) {w w' : World}, Twin w w' → w.Still →
    SameAnswer exact (w.run (r.run.run g)).1 (w'.run (r'.run.run g)).1 ∧
      Twin (w.run (r.run.run g)).2 (w'.run (r'.run.run g)).2

namespace Agree

variable {exact : Prop} {r r' : Reading α}

theorem rfl {r : Reading α} : Agree exact r r := by
  intro g w w' h hw
  obtain ⟨hsame, htwin⟩ := run_twin (r.run.run g) h hw
  exact ⟨⟨⟨by rw [hsame], fun _ => by rw [hsame]⟩, by rw [hsame]⟩, htwin⟩

theorem throw {e e' : Failure} (h : exact → e' = e) :
    Agree exact (MonadExcept.throw e : Reading α) (MonadExcept.throw e') :=
  fun _ _ _ htwin _ => ⟨⟨⟨Eq.refl _, fun hexact => congrArg Except.error (h hexact)⟩, Eq.refl _⟩, htwin⟩

theorem bind {k k' : α → Reading β} (h : Agree exact r r') (hk : ∀ a, Agree exact (k a) (k' a)) :
    Agree exact (r >>= k) (r' >>= k') := by
  intro g w w' htwin hw
  obtain ⟨⟨⟨hvalue, hfailure⟩, hguard⟩, hleft⟩ := h g htwin hw
  have hstill := still_run hw (r.run.run g)
  rw [run_bind, run_bind, World.run_bind, World.run_bind]
  generalize w.run (r.run.run g) = ran at hvalue hfailure hguard hleft hstill ⊢
  generalize w'.run (r'.run.run g) = ran' at hvalue hfailure hguard hleft ⊢
  obtain ⟨⟨o, g₁⟩, w₁⟩ := ran
  obtain ⟨⟨o', g₂⟩, w₂⟩ := ran'
  obtain rfl : g₂ = g₁ := hguard
  cases o with
  | ok a =>
      cases o' with
      | ok a' =>
          obtain rfl : a' = a := Option.some.inj hvalue
          exact hk a' g₂ hleft hstill
      | error e' => cases hvalue
  | error e =>
      cases o' with
      | ok a' => cases hvalue
      | error e' =>
          exact ⟨⟨⟨Eq.refl _, fun hexact => congrArg Except.error (Except.error.inj (hfailure hexact))⟩,
            Eq.refl _⟩, hleft⟩

/-- What follows an attempt must agree on outcomes that are the same up to failures. -/
theorem attempt_bind {k k' : Outcome α → Reading β} (h : Agree exact r r')
    (hk : ∀ o o', SameOutcome exact o o' → Agree exact (k o) (k' o')) :
    Agree exact (attempt r >>= k) (attempt r' >>= k') := by
  intro g w w' htwin hw
  obtain ⟨⟨houtcome, hguard⟩, hleft⟩ := h g htwin hw
  have hrun : ∀ (r : Reading α) (k : Outcome α → Reading β) (w : World),
      w.run ((attempt r >>= k).run.run g) =
        (w.run (r.run.run g)).2.run ((k (w.run (r.run.run g)).1.1).run.run (w.run (r.run.run g)).1.2) := by
    intro r k w
    have hattempt : w.run ((attempt r).run.run g) = _ := World.run_bind (r.run.run g) _ _
    rw [run_bind, World.run_bind, hattempt]
    exact Eq.refl _
  rw [hrun, hrun, hguard]
  exact hk _ _ houtcome _ hleft (still_run hw _)

theorem ite {c : Prop} [Decidable c] {k k' : Reading α} (h : Agree exact r r') (hk : Agree exact k k') :
    Agree exact (if c then r else k) (if c then r' else k') := by
  split
  · exact h
  · exact hk

theorem foldlM {γ : Type} {f f' : β → γ → Reading β} (h : ∀ b c, Agree exact (f b c) (f' b c)) (l : List γ)
    (b : β) : Agree exact (l.foldlM f b) (l.foldlM f' b) := by
  induction l generalizing b with
  | nil => exact rfl
  | cons c rest ih =>
      rw [List.foldlM_cons, List.foldlM_cons]
      exact bind (h b c) ih

/-- Jobs agree that collect the same. -/
theorem ofJob {jobs : List (Job α)} {j j' : Job (List α)} (h : Job.Collects jobs j) (h' : Job.Collects jobs j')
    (hexact : exact → j' = j) : Agree exact (Reading.ofJob j) (Reading.ofJob j') := by
  intro g w w' htwin hw
  have hrun : ∀ (j : Job (List α)) (w : World),
      w.run ((Reading.ofJob j).run.run g) = (((w.runJob j).1, g), (w.runJob j).2) := by
    intro j w
    rw [run_ofJob, World.run_bind]
    exact Eq.refl _
  obtain ⟨hleft, hyields⟩ := h w hw
  obtain ⟨hleft', hyields'⟩ := h' w' (htwin.toAlike.still hw)
  rw [hrun, hrun]
  refine ⟨⟨⟨?_, fun he => ?_⟩, Eq.refl _⟩, hleft.symm.trans (htwin.trans hleft')⟩
  · rw [hyields, hyields', alone_twin htwin hw]
  · rw [hexact he]
    exact (runJob_twin j htwin hw).1

end Agree

/-! ## Collectors -/

/-- How a call of a read collects the links of isolated fields. The names of the fields that lead to a call
tell it from the others. -/
abbrev Collector := List String → Context → List Value → List SchemaField → Job (List Collecting)

/-- The rows of a source, read by calls that collect in the given way. -/
def rowsBy (app : Application) (collect : Collector) :
    Nat → List String → Schema → Source → Context → Reading (List Record)
  | 0, _, _, _, _ => return []
  | levels + 1, call, s, src, ctx => do
    match ← ofJob (app.prepare s src ctx) with
    | none => return []
    | some (plan, rows) =>
      let key := ctx.guardKey s.id
      record (·.registerMissing key (rows.map fun row => (row.getD s.pkName, plan.finish row)))
      let collected ← ofJob (collect call ctx (rows.map (·.getD s.pkName)) plan.isolated)
      let resolve rows (c : Collecting) :=
        resolveField app (rowsBy app collect levels (call ++ [c.field.name])) s ctx rows c
      let rows ← collected.foldlM resolve rows
      let finished := rows.map plan.finish
      record (·.register key (finished.map fun row => (row.getD s.pkName, row)))
      return finished

/-- Links are collected as each field has them alone, and one field after another where nothing may run
side by side. -/
structure Collector.Faithful (app : Application) (collect : Collector) : Prop where
  alone : ∀ call ctx owners fields,
    Job.Collects (fields.map (Collecting.collect app ctx owners)) (collect call ctx owners fields)
  inTurn : ∀ call {ctx : Context} owners fields, ctx.concurrent = false →
    collect call ctx owners fields = Collecting.inTurn app ctx owners fields

variable {app : Application}

/-- The collector of a read whose calls may collect side by side, or of one whose calls do not. -/
def collector (app : Application) (together : Bool) : Collector := fun _ ctx owners fields =>
  if together && ctx.concurrent then Collecting.sideBySide app ctx owners fields
  else Collecting.inTurn app ctx owners fields

theorem faithful_collector (together : Bool) : Collector.Faithful app (collector app together) where
  alone _ ctx owners fields := by
    rw [collector]
    split
    · exact Collecting.collects_sideBySide owners fields
    · exact Collecting.collects_inTurn owners fields
  inTurn _ _ owners fields h := by
    rw [collector, h, Bool.and_false]
    exact Eq.refl _

theorem rowsBy_collector (app : Application) (together : Bool) (levels : Nat) (call : List String) :
    rowsBy app (collector app together) levels call = rowsWithin app together levels := by
  induction levels generalizing call with
  | zero => exact Eq.refl _
  | succ levels ih =>
      funext s src ctx
      rw [rowsWithin_succ, rowsBy]
      refine congrArg (ofJob _ >>= ·) (funext fun prepared => ?_)
      rcases prepared with _ | ⟨plan, rows⟩
      · exact Eq.refl _
      · simp only [ih]
        exact Eq.refl _

/-- The collector of a read whose calls send queries of several fields at once, where that is allowed.
`order` says for each call in which turns its queries come back. -/
def turns (app : Application) (order : List String → List Job.Turn) : Collector := fun call ctx owners fields =>
  if ctx.concurrent && fields.length > 1 then
    Job.joined (order call) (fields.map (Collecting.collect app ctx owners))
  else Collecting.inTurn app ctx owners fields

theorem faithful_turns (order : List String → List Job.Turn) : Collector.Faithful app (turns app order) where
  alone call ctx owners fields := by
    rw [turns]
    split
    · refine Job.collects_joined _ fun j hj => ?_
      obtain ⟨f, _, rfl⟩ := List.mem_map.mp hj
      exact Collecting.quiet_collect owners f
    · exact Collecting.collects_inTurn owners fields
  inTurn call _ owners fields h := by
    rw [turns, h, Bool.false_and]
    exact Eq.refl _

/-! ## Whole reads -/

section Fields

variable {read read' : Schema → Source → Context → Reading (List Record)} {s : Schema} {ctx : Context}
  (hread : ∀ nested src f, Agree (ctx.concurrent = false) (read nested src (ctx.derive f))
    (read' nested src (ctx.derive f)))
include hread

theorem agree_materialize (f : SchemaField) (links : Links) :
    Agree (ctx.concurrent = false) (materialize app read s ctx f links)
      (materialize app read' s ctx f links) := by
  refine .bind .rfl fun nested => ?_
  split
  · exact .rfl
  · exact .bind .rfl fun g => .ite (.bind (hread _ _ _) fun _ => .rfl) .rfl

theorem agree_resolveField (rows : List Record) (c : Collecting) :
    Agree (ctx.concurrent = false) (resolveField app read s ctx rows c)
      (resolveField app read' s ctx rows c) := by
  refine .attempt_bind (agree_materialize hread c.field c.links) fun o o' ⟨hvalue, hfailure⟩ => ?_
  cases o with
  | ok values =>
      cases o' with
      | ok values' =>
          obtain rfl : values' = values := Option.some.inj hvalue
          exact .rfl
      | error e' => cases hvalue
  | error e =>
      cases o' with
      | ok values' => cases hvalue
      | error e' =>
          -- Whether a failure is passed over does not depend on what failed.
          cases hsilent : c.field.silent && !ctx.raises with
          | true =>
              simp only [SchemaField.report?, hsilent]
              exact .rfl
          | false =>
              simp only [SchemaField.report?, hsilent]
              exact .throw fun hexact => congrArg _ (Except.error.inj (hfailure hexact))

end Fields

/-- Reads agree if their links are collected as each field has them alone. -/
theorem agree_rowsBy {collect collect' : Collector} (h : Collector.Faithful app collect)
    (h' : Collector.Faithful app collect') (levels : Nat) (call : List String) (s : Schema) (src : Source)
    (ctx : Context) :
    Agree (ctx.concurrent = false) (rowsBy app collect levels call s src ctx)
      (rowsBy app collect' levels call s src ctx) := by
  induction levels generalizing call s src ctx with
  | zero => exact .rfl
  | succ levels ih =>
      refine .bind .rfl fun prepared => ?_
      split
      · exact .rfl
      · rename_i plan rows
        refine .bind .rfl fun _ =>
          .bind (.ofJob (h.alone _ _ _ _) (h'.alone _ _ _ _) fun hexact => ?_) fun collected => ?_
        · rw [h.inTurn _ _ _ hexact, h'.inTurn _ _ _ hexact]
        · refine .bind (.foldlM (fun rows c => ?_) collected rows) fun _ => .rfl
          exact agree_resolveField (fun nested src f => ih (call ++ [c.field.name]) nested src (ctx.derive f)) rows c

end Reading

namespace World

/-- Reads the rows of a source as `readRows` does, with calls whose queries come back in the given order. -/
def readRowsInTurns (w : World) (cat : Catalog) (order : List String → List Job.Turn) (s : Schema)
    (src : Source) (ctx : Context) (g : Guard) : (Outcome (List Record) × Guard) × World :=
  w.run ((Reading.rowsBy (w.application cat) (Reading.turns (w.application cat) order) (w.levels cat ctx) [] s
    src ctx).run.run g)

variable {w : World} (hw : w.Still) (cat : Catalog) (s : Schema) (src : Source) (ctx : Context) (g : Guard)
include hw

/-- In whatever order the queries of calls come back, a read answers as the one that sends them one after
another. -/
theorem sameAnswer_readRowsInTurns (order : List String → List Job.Turn) :
    Reading.SameAnswer (ctx.concurrent = false) (w.readRows cat false s src ctx g).1
      (w.readRowsInTurns cat order s src ctx g).1 := by
  rw [readRows, ← Reading.rowsBy_collector _ _ _ []]
  exact (Reading.agree_rowsBy (Reading.faithful_collector false) (Reading.faithful_turns order) _ _ s src ctx g
    (.refl w) hw).1

theorem sameAnswer_readRows : Reading.SameAnswer (ctx.concurrent = false) (w.readRows cat false s src ctx g).1
    (w.readRows cat true s src ctx g).1 := by
  rw [readRows, readRows, ← Reading.rowsBy_collector _ _ _ [], ← Reading.rowsBy_collector _ _ _ []]
  exact (Reading.agree_rowsBy (Reading.faithful_collector false) (Reading.faithful_collector true) _ _ s src ctx g
    (.refl w) hw).1

end World

end RecordMapper
