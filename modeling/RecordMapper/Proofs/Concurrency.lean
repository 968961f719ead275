import RecordMapper.Proofs.Read.Agreement
import RecordMapper.Proofs.Read.Levels
import RecordMapper.Save.Rows

/-!
# Concurrency — calls that wait and calls that are polled

Reads and writes can be run to their ends, call after call, or be polled
while other work goes on. A read may then send the queries of several
fields at once. Neither changes what is read, what the guard knows, or
what is written. A save that is polled settles its options and its
database as part of its work, one that runs to its end beforehand
(`saveSettled`); the failures of that are no violated constraints, so
every context reports them as they are.
-/

namespace RecordMapper

open World

namespace Save

/-- A job in which the options and the database of a write are settled first. -/
def settled {α : Type} (app : Application) (ctx : Context) (o : SaveOptions) (write : WriteTarget → Job α) :
    Job α := do
  Job.ofOutcome o.check
  let t ← Job.ofOutcome (WriteTarget.of app.connections ctx o)
  mapped ctx (Job.atomicIf t.transactional t.database (write t))

theorem mapFailure_check {o : SaveOptions} {f : Failure} (ctx : Context) (h : o.check = .error f) :
    ctx.mapFailure f = f := by
  unfold SaveOptions.check at h
  split at h
  · cases h
    unfold Context.mapFailure
    split <;> rfl
  · cases h

theorem mapFailure_target {connections : Connections} {ctx : Context} {o : SaveOptions} {f : Failure}
    (h : WriteTarget.of connections ctx o = .error f) : ctx.mapFailure f = f := by
  have hresolve : ∀ {name : Option String} {wanted : Bool},
      (connections.resolve name >>= fun database => pure ⟨database, wanted⟩ : Outcome WriteTarget) = .error f →
        ctx.mapFailure f = f := by
    intro name wanted h
    unfold Connections.resolve at h
    simp only at h
    split at h
    · cases h
    · cases h
      unfold Context.mapFailure
      split <;> rfl
  unfold WriteTarget.of at h
  split at h <;> exact hresolve h

/-- It makes no difference whether options and database are settled before a write or as part of it. -/
theorem settled_eq {α : Type} (app : Application) (ctx : Context) (o : SaveOptions)
    (write : WriteTarget → Job α) :
    settled app ctx o write = mapped ctx (Job.ofOutcome o.check >>= fun _ =>
      Job.ofOutcome (WriteTarget.of app.connections ctx o) >>= fun t =>
        Job.atomicIf t.transactional t.database (write t)) := by
  unfold settled
  cases hcheck : o.check with
  | error f => exact congrArg (fun f => Job.ofOutcome (.error f)) (mapFailure_check ctx hcheck).symm
  | ok _ =>
      cases htarget : WriteTarget.of app.connections ctx o with
      | error f => exact congrArg (fun f => Job.ofOutcome (.error f)) (mapFailure_target htarget).symm
      | ok t => rfl

end Save

namespace Application

/-- Saves a record once the options and the database are settled. -/
def saveSettled (app : Application) (s : Schema) (data : Record) (ctx : Context) (o : SaveOptions) : Job Value :=
  Save.settled app ctx o fun t => Save.row app t s o data

/-- Saves records once the options and the database are settled. -/
def saveAllSettled (app : Application) (s : Schema) (data : List Record) (ctx : Context) (o : SaveOptions) :
    Job (List (Option Value)) :=
  Save.settled app ctx o fun t => Save.each (Save.row app t s o) t o data

end Application

namespace World

/-- Polled often enough, a job is done and has done what another one does in one run. -/
def PollsTo {α : Type} (w : World) (j j' : Job α) : Prop :=
  ∃ n, ∀ m, n ≤ m → w.run (j.run.pollBy m) = (.done (w.runJob j').1, (w.runJob j').2)

/-- A read yields the same rows, or fails as well, whether it sends its queries one after another or those of
several fields at once, in whatever order they come back; the guard knows the same afterwards, and the
failure is the same too where nothing may run side by side. A save that is polled yields what one yields
that runs to its end, and leaves the same databases. -/
theorem reads_and_saves_agree {w : World} (hw : w.Still) (cat : Catalog) (s : Schema) (ctx : Context) :
    (∀ src g,
      Reading.SameAnswer (ctx.concurrent = false) (w.readRows cat false s src ctx g).1
          (w.readRows cat true s src ctx g).1 ∧
        ∀ order, Reading.SameAnswer (ctx.concurrent = false) (w.readRows cat false s src ctx g).1
          (w.readRowsInTurns cat order s src ctx g).1) ∧
    let app := w.application cat
    ∀ o, (∀ data, w.PollsTo (app.save s data ctx o) (app.saveSettled s data ctx o)) ∧
      ∀ data, w.PollsTo (app.saveAll s data ctx o) (app.saveAllSettled s data ctx o) := by
  refine ⟨fun src g => ⟨sameAnswer_readRows hw cat s src ctx g, sameAnswer_readRowsInTurns hw cat s src ctx g⟩,
    fun o => ⟨fun data => ?_, fun data => ?_⟩⟩
  · rw [PollsTo, Application.saveSettled, Save.settled_eq]
    exact exists_pollBy _ w
  · rw [PollsTo, Application.saveAllSettled, Save.settled_eq]
    exact exists_pollBy _ w

/-! ## Two friends and their fans -/

def friendFields : List FieldDecl :=
  [{ name := "id" }, { name := "friend", nested := some .self }, { name := "fans", nested := some .self }]

/-- The schema of a person with the friend and the fans, who are looked for side by side. -/
def friendsSchema : Schema :=
  match Schema.build twoFriends.registry {} "Friends" (Registry.modelOf twoFriends.registry "person")
    friendFields with
  | .ok s => s
  | .error _ => default

/-- The fans are found before the friend, and both before anyone looks. -/
def fansFirst (_ : List String) : List Job.Turn := [.send 1, .send 0, .look 0]

theorem twoFriends_agree :
    twoFriends.Still ∧
    (Reading.SameAnswer (({} : Context).concurrent = false)
        (twoFriends.readRows {} false friendsSchema (.key (.int 1)) {} .empty).1
        (twoFriends.readRowsInTurns {} fansFirst friendsSchema (.key (.int 1)) {} .empty).1 ∧
      ((twoFriends.readRowsInTurns {} fansFirst friendsSchema (.key (.int 1)) {} .empty).1.1.toOption.map
        List.length) = some 1) ∧
    twoFriends.PollsTo ((twoFriends.application {}).save friendsSchema [("id", .int 3)] {} {})
      ((twoFriends.application {}).saveSettled friendsSchema [("id", .int 3)] {} {}) := by
  have hstill : twoFriends.Still := rfl
  obtain ⟨hreads, hsaves⟩ := reads_and_saves_agree hstill {} friendsSchema {}
  exact ⟨hstill, ⟨(hreads (.key (.int 1)) .empty).2 fansFirst, by decide +kernel⟩,
    (hsaves {}).1 [("id", .int 3)]⟩

end World

end RecordMapper
