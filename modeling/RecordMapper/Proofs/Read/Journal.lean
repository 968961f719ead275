import RecordMapper.Proofs.Steps.Running
import RecordMapper.Read.Rows

/-!
# Journal — reads that keep account of what they do

Every call of a read, nested ones included, fetches rows, notes them in
the guard, resolves their isolated fields and records them once more
when they are finished; a nested field takes the rows that the guard
knows. A journal is a guard together with an account of these events,
each with the calls that were running. A read that keeps a journal is
the read itself once the account is forgotten (`mirrors_rowsWithin`), so
what is proved of journals is proved of reads.
-/

namespace RecordMapper

/-! ## Journals -/

/-- What a read does with rows, which are named by a guard key and a primary key. -/
inductive ReadEvent
  /-- A row was fetched. -/
  | fetched (key : GuardKey) (pk : Value)
  /-- A row was recorded with its isolated fields still at their placeholders. -/
  | noted (key : GuardKey) (pk : Value) (row : Record)
  /-- A row was recorded with all its fields. -/
  | finished (key : GuardKey) (pk : Value) (row : Record)
  /-- A recorded row was taken for a nested one. -/
  | taken (key : GuardKey) (pk : Value) (row : Record)
  /-- A call came to its end. -/
  | ended (well : Bool)
  /-- A call was nested too deep and cut off. -/
  | cutOff
  deriving DecidableEq, Repr

/-- An event with the calls that were running, innermost first. -/
structure JournalEntry where
  calls : List Nat
  event : ReadEvent
  deriving DecidableEq, Repr

/-- A guard with an account of what was done. -/
structure Journal where
  guard : Guard
  /-- The calls that are running, innermost first. -/
  calls : List Nat
  /-- The number of calls so far. -/
  started : Nat
  /-- What was done, in order. -/
  log : List JournalEntry
  deriving DecidableEq, Repr

namespace Journal

/-- Nothing was done yet. -/
def fresh : Journal := ⟨.empty, [], 0, []⟩

def tell (j : Journal) (events : List ReadEvent) : Journal :=
  { j with log := j.log ++ events.map (⟨j.calls, ·⟩) }

/-- A call begins. -/
def enter (j : Journal) : Journal := { j with calls := j.started :: j.calls, started := j.started + 1 }

/-- The innermost call ends. -/
def leave (j : Journal) (well : Bool) : Journal :=
  { j.tell [.ended well] with calls := j.calls.tail }

/-- Those of some rows that are not known, each key once. -/
def newRows (known : Keyed Record) : List (Value × Record) → List (Value × Record)
  | [] => []
  | e :: rest =>
    if (known.lookup e.1).isSome then newRows known rest else e :: newRows (known ++ [e]) rest

/-- Fetched rows are recorded unless they are known. -/
def note (j : Journal) (key : GuardKey) (rows : List (Value × Record)) : Journal :=
  { j.tell (rows.map (fun e => .fetched key e.1) ++
      (newRows (j.guard.rows key) rows).map fun e => .noted key e.1 e.2) with
    guard := j.guard.registerMissing key rows }

/-- Finished rows are recorded. -/
def finish (j : Journal) (key : GuardKey) (rows : List (Value × Record)) : Journal :=
  { j.tell (rows.map fun e => .finished key e.1 e.2) with guard := j.guard.register key rows }

/-- Rows that are known are taken. -/
def take (j : Journal) (key : GuardKey) (pks : List Value) : Journal :=
  j.tell (pks.filterMap fun pk => (j.guard.get? key pk).map fun row =>
    .taken key (Keyed.seat (j.guard.rows key) pk) row)

end Journal

/-- Computations of a read that keeps a journal. -/
abbrev Journaling := ExceptT Failure (StateT Journal Steps)

namespace Journaling

variable {α β : Type}

/-- A job as part of a read. -/
def ofJob (j : Job α) : Journaling α := ExceptT.mk fun journal => j.run.bind fun r => .done (r, journal)

/-- A known result as part of a read. -/
def ofOutcome (r : Outcome α) : Journaling α := ofJob (Job.ofOutcome r)

/-- The guard of the journal. -/
def guard : Journaling Guard := ExceptT.mk fun j => .done (.ok j.guard, j)

/-- Changes the journal. -/
def record (change : Journal → Journal) : Journaling Unit := ExceptT.mk fun j => .done (.ok (), change j)

/-- The outcome of a part, whether it succeeds or not. -/
def attempt (r : Journaling α) : Journaling (Outcome α) :=
  ExceptT.mk fun j => (r.run j).bind fun (outcome, j) => .done (.ok outcome, j)

/-- A part that is a call of its own. -/
def call (r : Journaling α) : Journaling α :=
  ExceptT.mk fun j => (r.run j.enter).bind fun (outcome, j) => .done (outcome, j.leave outcome.isOk)

end Journaling

/-! ## Reads in two parts -/

/-- What a read goes on with: its plan and the prefilled rows, unless there are none. -/
def Application.prepare (app : Application) (s : Schema) (src : Source) (ctx : Context) :
    Job (Option (ReadPlan × List Record)) := do
  match ← Job.ofOutcome (s.request? app.registry src ctx.single) with
  | none => return none
  | some request =>
    let now ← Job.clock
    let plan ← Job.ofOutcome (ReadPlan.make app.registry s ctx request.rows.isSliced now)
    let fetched ← app.fetch ctx request.rows plan.columns
    let rows := distinctRows request.order s.pkName fetched
    if rows.isEmpty then return none
    return some (plan, rows.map plan.prefill)

/-- The links of the isolated fields of a plan. -/
def Application.collect (app : Application) (together : Bool) (ctx : Context) (plan : ReadPlan)
    (owners : List Value) : Job (List Collecting) :=
  if together && ctx.concurrent then Collecting.sideBySide app ctx owners plan.isolated
  else Collecting.inTurn app ctx owners plan.isolated

namespace Reading

variable {α β : Type}

theorem run_ofJob (j : Job α) (g : Guard) : (ofJob j).run.run g = j.run.bind fun r => .done (r, g) := rfl

theorem run_bind (r : Reading α) (k : α → Reading β) (g : Guard) :
    (r >>= k).run.run g = (r.run.run g).bind fun (outcome, g) =>
      match outcome with
      | .ok a => (k a).run.run g
      | .error e => .done (.error e, g) := by
  refine congrArg (Steps.bind (r.run.run g)) (funext fun (outcome, g) => ?_)
  cases outcome <;> rfl

theorem ext {r r' : Reading α} (h : ∀ g, r.run.run g = r'.run.run g) : r = r' := funext h

/-- One job after another is one part of a read after another. -/
theorem ofJob_bind (j : Job α) (k : α → Job β) : ofJob (j >>= k) = ofJob j >>= fun a => ofJob (k a) := by
  refine ext fun g => ?_
  have hjob : (j >>= k).run = j.run.bind (ExceptT.bindCont k) := rfl
  rw [run_bind, run_ofJob, run_ofJob, hjob, Steps.bind_bind, Steps.bind_bind]
  refine congrArg (Steps.bind j.run) (funext fun outcome => ?_)
  cases outcome <;> rfl

/-- Resolves the isolated fields of prefilled rows. -/
def resolveRows (app : Application) (together : Bool)
    (read : Schema → Source → Context → Reading (List Record)) (s : Schema) (ctx : Context)
    (plan : ReadPlan) (rows : List Record) : Reading (List Record) := do
  let key := ctx.guardKey s.id
  record (·.registerMissing key (rows.map fun row => (row.getD s.pkName, plan.finish row)))
  let collected ← ofJob (app.collect together ctx plan (rows.map (·.getD s.pkName)))
  let rows ← collected.foldlM (resolveField app read s ctx) rows
  let finished := rows.map plan.finish
  record (·.register key (finished.map fun row => (row.getD s.pkName, row)))
  return finished

/-- A read prepares its rows and then resolves them. -/
theorem rowsWithin_succ (app : Application) (together : Bool) (levels : Nat) (s : Schema) (src : Source)
    (ctx : Context) : rowsWithin app together (levels + 1) s src ctx =
      (ofJob (app.prepare s src ctx) >>= fun prepared =>
        match prepared with
        | none => pure []
        | some (plan, rows) =>
            resolveRows app together (rowsWithin app together levels) s ctx plan rows) := by
  rw [rowsWithin, Application.prepare, ofJob_bind, bind_assoc]
  refine congrArg (ofOutcome _ >>= ·) (funext fun request => ?_)
  cases request with
  | none => rfl
  | some request =>
      dsimp only
      rw [ofJob_bind, bind_assoc]
      refine congrArg (ofJob _ >>= ·) (funext fun now => ?_)
      rw [ofJob_bind, bind_assoc]
      refine congrArg (ofOutcome _ >>= ·) (funext fun plan => ?_)
      rw [ofJob_bind, bind_assoc]
      refine congrArg (ofJob _ >>= ·) (funext fun fetched => ?_)
      split
      · rfl
      · rfl

end Reading

namespace Journaling

/-- The values of an isolated field, given its links. `read` reads nested schemas. -/
def materialize (app : Application) (read : Schema → Source → Context → Journaling (List Record))
    (s : Schema) (ctx : Context) (f : SchemaField) (links : Links) : Journaling (Keyed Value) := do
  match ← ofOutcome (app.nested? s f) with
  | none => return f.shape links some
  | some nested =>
    let below := ctx.derive f.name
    let key := below.guardKey nested.id
    let missing := (← guard).unresolved key links.related
    if !missing.isEmpty then
      let _ ← read nested (.keys missing) below
    let g ← guard
    record (·.take key links.related)
    return f.shape links fun pk => (g.get? key pk).map .map

/-- The rows with the values of one isolated field put in. -/
def resolveField (app : Application) (read : Schema → Source → Context → Journaling (List Record))
    (s : Schema) (ctx : Context) (rows : List Record) (c : Collecting) : Journaling (List Record) := do
  match ← attempt (materialize app read s ctx c.field c.links) with
  | .ok values => return assignField s.pkName c.field.name values rows
  | .error e =>
    match c.field.report? ctx e with
    | some e => throw e
    | none => return rows

/-- Resolves the isolated fields of prefilled rows. -/
def resolveRows (app : Application) (together : Bool)
    (read : Schema → Source → Context → Journaling (List Record)) (s : Schema) (ctx : Context)
    (plan : ReadPlan) (rows : List Record) : Journaling (List Record) := do
  let key := ctx.guardKey s.id
  record (·.note key (rows.map fun row => (row.getD s.pkName, plan.finish row)))
  let collected ← ofJob (app.collect together ctx plan (rows.map (·.getD s.pkName)))
  let rows ← collected.foldlM (resolveField app read s ctx) rows
  let finished := rows.map plan.finish
  record (·.finish key (finished.map fun row => (row.getD s.pkName, row)))
  return finished

/-- The rows of a source, at most so many levels of nested schemas deep. -/
def rowsWithin (app : Application) (together : Bool) :
    Nat → Schema → Source → Context → Journaling (List Record)
  | 0, _, _, _ => do
    record (·.tell [.cutOff])
    return []
  | levels + 1, s, src, ctx => call do
    match ← ofJob (app.prepare s src ctx) with
    | none => return []
    | some (plan, rows) => resolveRows app together (rowsWithin app together levels) s ctx plan rows

/-! ## The account forgotten -/

variable {α β : Type}

/-- A read that keeps a journal does what a read does, whose guard is that of the journal. -/
def Mirrors (r : Journaling α) (q : Reading α) : Prop :=
  ∀ j, ((r.run.run j).bind fun (outcome, j) => .done (outcome, j.guard)) = q.run.run j.guard

theorem run_bind (r : Journaling α) (k : α → Journaling β) (j : Journal) :
    (r >>= k).run.run j = (r.run.run j).bind fun (outcome, j) =>
      match outcome with
      | .ok a => (k a).run.run j
      | .error e => .done (.error e, j) := by
  refine congrArg (Steps.bind (r.run.run j)) (funext fun (outcome, j) => ?_)
  cases outcome <;> rfl

namespace Mirrors

theorem ofJob (job : Job α) : Mirrors (Journaling.ofJob job) (Reading.ofJob job) := fun j => by
  show (job.run.bind _).bind _ = job.run.bind _
  rw [Steps.bind_bind]
  rfl

theorem pure (a : α) : Mirrors (Pure.pure a) (Pure.pure a) := fun _ => rfl

theorem throw (e : Failure) : Mirrors (MonadExcept.throw e : Journaling α) (MonadExcept.throw e) := fun _ => rfl

theorem bind {r : Journaling α} {q : Reading α} {k : α → Journaling β} {l : α → Reading β}
    (hr : Mirrors r q) (hk : ∀ a, Mirrors (k a) (l a)) : Mirrors (r >>= k) (q >>= l) := by
  intro j
  rw [run_bind, Reading.run_bind, ← hr j, Steps.bind_bind, Steps.bind_bind]
  refine congrArg (Steps.bind (r.run.run j)) (funext fun (outcome, j) => ?_)
  cases outcome with
  | ok a => exact hk a j
  | error e => rfl

theorem attempt {r : Journaling α} {q : Reading α} (h : Mirrors r q) :
    Mirrors (Journaling.attempt r) (Reading.attempt q) := by
  intro j
  show ((r.run j).bind _).bind _ = (q.run j.guard).bind _
  have hj : q.run j.guard = _ := (h j).symm
  rw [hj, Steps.bind_bind, Steps.bind_bind]
  rfl

theorem call {r : Journaling α} {q : Reading α} (h : Mirrors r q) : Mirrors (Journaling.call r) q := by
  intro j
  show ((r.run j.enter).bind _).bind _ = _
  rw [Steps.bind_bind]
  exact h j.enter

theorem guard : Mirrors Journaling.guard Reading.guard := fun _ => rfl

theorem record {change : Journal → Journal} {change' : Guard → Guard}
    (h : ∀ j, (change j).guard = change' j.guard) :
    Mirrors (Journaling.record change) (Reading.record change') := by
  intro j
  show Steps.done _ = Steps.done _
  rw [h j]

/-- What only the account takes down is not seen without it. -/
theorem tell {change : Journal → Journal} {r : Journaling α} {q : Reading α}
    (hsame : ∀ j, (change j).guard = j.guard) (h : Mirrors r q) :
    Mirrors (Journaling.record change >>= fun _ => r) q := by
  intro j
  rw [← hsame j]
  exact h (change j)

theorem foldlM {f : β → α → Journaling β} {g : β → α → Reading β} (h : ∀ b a, Mirrors (f b a) (g b a))
    (l : List α) (b : β) : Mirrors (l.foldlM f b) (l.foldlM g b) := by
  induction l generalizing b with
  | nil => exact pure b
  | cons a rest ih =>
      rw [List.foldlM_cons, List.foldlM_cons]
      exact bind (h b a) ih

end Mirrors

section Parts

variable {app : Application} {read : Schema → Source → Context → Journaling (List Record)}
  {read' : Schema → Source → Context → Reading (List Record)}
  (hread : ∀ s src ctx, Mirrors (read s src ctx) (read' s src ctx))

include hread

theorem mirrors_materialize (s : Schema) (ctx : Context) (f : SchemaField) (links : Links) :
    Mirrors (materialize app read s ctx f links) (Reading.materialize app read' s ctx f links) := by
  refine .bind (.ofJob _) fun nested => ?_
  cases nested with
  | none => exact .pure _
  | some nested =>
      refine .bind .guard fun g => ?_
      have htake : ∀ key : GuardKey, Mirrors
          (do let g ← guard
              record (·.take key links.related)
              return f.shape links fun pk => (g.get? key pk).map .map)
          (do let g ← Reading.guard
              return f.shape links fun pk => (g.get? key pk).map .map) :=
        fun key => .bind .guard fun g => .tell (fun _ => rfl) (.pure _)
      dsimp only
      split
      · exact .bind (hread _ _ _) fun _ => htake _
      · exact htake _

theorem mirrors_resolveField (s : Schema) (ctx : Context) (rows : List Record) (c : Collecting) :
    Mirrors (resolveField app read s ctx rows c) (Reading.resolveField app read' s ctx rows c) := by
  refine .bind (.attempt (mirrors_materialize hread s ctx c.field c.links)) fun outcome => ?_
  cases outcome with
  | ok values => exact .pure _
  | error e =>
      dsimp only
      cases c.field.report? ctx e with
      | some e => exact .throw e
      | none => exact .pure rows

theorem mirrors_resolveRows (together : Bool) (s : Schema) (ctx : Context) (plan : ReadPlan)
    (rows : List Record) : Mirrors (resolveRows app together read s ctx plan rows)
      (Reading.resolveRows app together read' s ctx plan rows) := by
  refine .bind (.record fun _ => rfl) fun _ => .bind (.ofJob _) fun collected => ?_
  refine .bind (.foldlM (mirrors_resolveField hread s ctx) collected rows) fun rows => ?_
  exact .bind (.record fun _ => rfl) fun _ => .pure _

end Parts

/-- Without its account, a read that keeps a journal is the read. -/
theorem mirrors_rowsWithin (app : Application) (together : Bool) (levels : Nat) (s : Schema)
    (src : Source) (ctx : Context) : Mirrors (rowsWithin app together levels s src ctx)
      (Reading.rowsWithin app together levels s src ctx) := by
  induction levels generalizing s src ctx with
  | zero => exact fun _ => rfl
  | succ levels ih =>
      rw [Reading.rowsWithin_succ, rowsWithin]
      refine .call (.bind (.ofJob _) fun prepared => ?_)
      cases prepared with
      | none => exact .pure _
      | some p => exact mirrors_resolveRows ih together s ctx p.1 p.2

end Journaling

end RecordMapper
