import RecordMapper.Proofs.Save.Written
import RecordMapper.Proofs.Save.Repeating
import RecordMapper.Proofs.Steps.Turns

/-!
# Overlapping saves — two saves in turns on one database

A save closes the transactions it opens, whatever it is answered, and one
that passes over no failure rolls back only to fail
(`SaveCall.brackets_job`, `SaveCall.undoesToFail_job`). So of two saves
that call a database in turns each has scopes of its own, and what a
successful one keeps in them lasts, unless one of the rollbacks meets
calls that are not its own (`World.saves_overlapping`). Both kinds of
such rollbacks lose rows (`World.Desk.folders_lost`).
-/

namespace RecordMapper

open World Move

/-- Failures of some parts of a save are passed over. -/
def SaveOptions.PassesOver (o : SaveOptions) : Prop := o.skipFailed ∨ o.forgiveRelations.skipsAny

variable {app : Application} {t : WriteTarget} {nests : Prop}

namespace RelationWrite

theorem assign_brackets (database : String) (pk : Value) (keys : List Value) (created : Bool) (w : RelationWrite) :
    Job.Brackets database nests (w.assign database pk keys created) := by
  cases w with
  | manyToMany through own other =>
      have hlink : ∀ existing, Job.Brackets database nests
          ((missingLinks own other pk keys existing).forM fun row => do
            let _ ← Job.insert database through row) :=
        fun existing => .forM fun row _ => .bind (.ask trivial) fun _ => .pure _
      have hrest : Job.Brackets database nests (do
          let existing ← if created then pure [] else
            Job.fetch database (throughRows through own pk) [.ofPath other]
          (missingLinks own other pk keys existing).forM fun row => do
            let _ ← Job.insert database through row) :=
        .ite (.bind (.pure _) hlink) (.bind (.ask trivial) hlink)
      exact .ite (.bind (.ask trivial) fun _ => hrest) hrest
  | reverse related field nullable =>
      have hpoint : Job.Brackets database nests (do
          if !keys.isEmpty then
            let _ ← Job.update database ((Queryset.all related).pkIn keys) [(field, pk)]) :=
        .ite (.bind (.ask trivial) fun _ => .pure _) (.pure _)
      exact .ite (.bind (.ask trivial) fun _ => hpoint) hpoint

theorem complete_brackets (database : String) (pk : Value) (saved : List Value) (created : Bool) (w : RelationWrite) :
    Job.Brackets database nests (w.complete database pk saved created) := by
  cases w with
  | manyToMany through own other => exact assign_brackets database pk saved created (.manyToMany through own other)
  | reverse related field nullable => exact .ite (.bind (.ask trivial) fun _ => .pure _) (.pure _)

end RelationWrite

namespace Save

theorem createRow_brackets (s : Schema) (pk : Option Value) (data extra : Record) :
    Job.Brackets t.database nests (createRow t s pk data extra) :=
  .bind .clock fun _ => .bind (.ask trivial) fun _ => .pure _

theorem extendParent_brackets (s : Schema) (pk : Value) (data extra : Record) :
    Job.Brackets t.database nests (extendParent app t s pk data extra) :=
  .bind .clock fun _ => .bind (.ask trivial) fun _ => .ite (.bind (.ask trivial) fun _ => .pure _) (.pure _)

theorem parentHas_brackets (s : Schema) (pk : Value) : Job.Brackets t.database nests (parentHas app t s pk) := by
  unfold parentHas
  split
  · exact .any _
  · exact .pure _

theorem writeRow_brackets (s : Schema) (o : SaveOptions) (data extra : Record) :
    Job.Brackets t.database nests (writeRow app t s o data extra) := by
  unfold writeRow
  split
  · exact .ite (.bind (.throw _) fun _ => createRow_brackets s none data extra) (createRow_brackets s none data extra)
  · rename_i pk _
    have hmissing : Job.Brackets t.database nests (do
        if ← parentHas app t s pk then extendParent app t s pk data extra
        else if o.mustUpdate then throw (.noRowToUpdate s.name pk)
        else createRow t s (some pk) data extra) :=
      .bind (parentHas_brackets s pk) fun _ => .ite (extendParent_brackets s pk data extra)
        (.ite (.throw _) (createRow_brackets s (some pk) data extra))
    refine .ite (createRow_brackets s (some pk) data extra) (.bind .clock fun now => ?_)
    exact .ite (.bind (.ask trivial) fun _ => .ite (.pure _) hmissing)
      (.bind (.ask trivial) fun _ => .ite (.pure _) hmissing)

theorem each_brackets {save : Record → Job Value} {o : SaveOptions} (hnests : o.skipFailed → nests) {items : List Record}
    (h : ∀ item ∈ items, Job.Brackets t.database nests (save item)) :
    Job.Brackets t.database nests (each save t o items) := by
  refine .mapM fun item hitem => ?_
  split
  · rename_i hskip
    refine .bind (.attempt (.atomicIf _ (fun _ => hnests hskip) (h item hitem))) fun r => ?_
    cases r <;> exact .pure _
  · exact .bind (h item hitem) fun _ => .pure _

theorem relation_brackets {o : SaveOptions} (hnests : o.forgiveRelations.skipsAny → nests) (f : SchemaField)
    {write : Job Unit} (h : Job.Brackets t.database nests write) :
    Job.Brackets t.database nests (relation t o f write) := by
  refine .bind (.attempt (.atomicIf _ (fun hwanted => hnests (Bool.and_eq_true_iff.mp hwanted).2) h)) fun r => ?_
  cases r with
  | ok _ => exact .pure _
  | error e => exact .ite (.pure _) (.throw _)

/-- A save closes what it opens at every level of nested objects. It opens transactions only if it passes over
failures. -/
theorem rowWithin_brackets (levels : Nat) (s : Schema) {o : SaveOptions} (hnests : o.PassesOver → nests)
    (data extra : Record) : Job.Brackets t.database nests (rowWithin app t levels s o data extra) := by
  induction levels generalizing s o data extra with
  | zero => exact .pure _
  | succ levels ih =>
      have hnested : o.nested.PassesOver → nests := hnests
      have hrelations : ∀ row, Job.Brackets t.database nests (relations app t (rowWithin app t levels) s o row) := by
        refine fun row => .bind (.forM fun e _ => relation_brackets (fun h => hnests (.inr h)) e.1 ?_) fun _ =>
          .forM fun e _ => relation_brackets (fun h => hnests (.inr h)) e.1 ?_
        · split
          · exact RelationWrite.assign_brackets t.database row.pk _ row.created _
          · exact .pure _
        · refine .bind (.ofOutcome _) fun nested => ?_
          split
          · refine .bind (each_brackets (fun h => hnests (.inl h)) fun item _ => ih _ hnested item _) fun saved => ?_
            exact RelationWrite.complete_brackets t.database row.pk _ row.created _
          · exact .pure _
      exact .bind (writeRow_brackets s o data extra) fun row => .ite (.bind (hrelations row) fun _ => .pure _) (.pure _)

end Save

/-! ## Whole saves -/

/-- A call to save a record. -/
structure SaveCall where
  schema : Schema
  data : Record
  context : Context
  options : SaveOptions

def SaveCall.job (app : Application) (call : SaveCall) : Job Value :=
  app.save call.schema call.data call.context call.options

variable {call : SaveCall} {database : String}

theorem SaveCall.job_eq (htarget : WriteTarget.of app.connections call.context call.options = .ok ⟨database, true⟩) :
    call.job app = Save.mapped call.context (do
      Job.ofOutcome call.options.check
      Job.atomic database (Save.row app ⟨database, true⟩ call.schema call.options call.data)) := by
  rw [job, Application.save, htarget]
  rfl

theorem SaveCall.brackets_job
    (htarget : WriteTarget.of app.connections call.context call.options = .ok ⟨database, true⟩) :
    Job.Brackets database True (call.job app) := by
  rw [job_eq htarget]
  have hrow : Job.Brackets database True (Save.row app ⟨database, true⟩ call.schema call.options call.data) :=
    Save.rowWithin_brackets (t := ⟨database, true⟩) _ call.schema (fun _ => trivial) call.data []
  refine .bind (.attempt (.bind (.ofOutcome _) fun _ => .atomic trivial hrow)) fun r => ?_
  cases r with
  | ok pk => exact .pure pk
  | error f => exact .throw _

/-- A save that passes over no failure rolls back only to fail. -/
theorem SaveCall.undoesToFail_job
    (htarget : WriteTarget.of app.connections call.context call.options = .ok ⟨database, true⟩)
    (hforgives : ¬call.options.PassesOver) : (call.job app).run.UndoesToFail := by
  rw [job_eq htarget]
  have hrow : Job.Brackets database False (Save.row app ⟨database, true⟩ call.schema call.options call.data) :=
    Save.rowWithin_brackets (t := ⟨database, true⟩) _ call.schema hforgives call.data []
  have hsteps : (do
      Job.ofOutcome call.options.check
      Job.atomic database (Save.row app ⟨database, true⟩ call.schema call.options call.data) : Job Value).run.UndoesToFail := by
    cases call.options.check with
    | error f => exact .done _
    | ok _ => exact Job.undoesToFail_atomic hrow
  generalize (do
    Job.ofOutcome call.options.check
    Job.atomic database (Save.row app ⟨database, true⟩ call.schema call.options call.data) : Job Value) = j at hsteps
  show Steps.UndoesToFail ((j.run.bind fun r => .done (Except.ok r)).bind (ExceptT.bindCont _))
  rw [Steps.bind_bind]
  refine hsteps.map (fun r => ?_) fun f => ⟨call.context.mapFailure f, rfl⟩
  cases r with
  | ok pk => exact ⟨.ok pk, rfl⟩
  | error f => exact ⟨.error (call.context.mapFailure f), rfl⟩

namespace World

variable {w : World} {who : Party}

/-- The computations of two saves. -/
def saves (w : World) (cat : Catalog) (calls : Party → SaveCall) (who : Party) : Steps (Outcome Value) :=
  ((calls who).job (w.application cat)).run

/-- Two saves call one database in turns, each in a transaction. If one of them succeeds, then once both are done, every
row that the other one spares is as the last statement left it that the save made on it and did not undo itself: provided
that within a transaction that the other one rolls back the save neither writes nor closes a transaction, and within one
of its own that it rolls back, as it may where failures are passed over, the other one closes what it opens and nothing
else. A save that passes over no failure undoes none of its statements. -/
theorem saves_overlapping (cat : Catalog) (calls : Party → SaveCall)
    (hmain : ∀ who, (calls who).options.transaction = .main)
    (hdatabase : ∀ who, w.connections.resolve (calls who).context.database = .ok database) (turns : List Party)
    {results : Party → Outcome Value}
    (hdone : ∀ who, (takeTurns turns (w.saves cat calls) w).1 who = .done (results who)) {pk : Value}
    (hok : results who = .ok pk)
    (hlooks : ∀ inside, RolledBack (movesOn database turns (w.saves cat calls) w) who.other inside →
      ∀ x ∈ inside, x.who = who → x.call.IsRead ∨ x.call = .begin)
    (hcloses : (calls who).options.PassesOver → ∀ inside,
      RolledBack (movesOn database turns (w.saves cat calls) w) who inside →
      ∃ kept, survivors? Move.call (madeBy who.other inside) = some kept) :
    let moves := movesOn database turns (w.saves cat calls) w
    let after := (takeTurns turns (w.saves cat calls) w).2
    ∃ kept, survivors? Move.call (madeBy who moves) = some kept ∧
      (¬(calls who).options.PassesOver → ∀ x ∈ madeBy who moves, x.call.IsStatement → x ∈ kept) ∧
      ∀ m key, (∀ x ∈ moves, x.who ≠ who → x.call.IsStatement → x.Spares m key) →
        ShowsRow m key kept (after.database database).store := by
  intro moves after
  have htarget : ∀ who, WriteTarget.of (w.application cat).connections (calls who).context (calls who).options =
      .ok ⟨database, true⟩ := by
    intro who
    rw [WriteTarget.of, hmain]
    show (w.connections.resolve (calls who).context.database >>= _) = _
    rw [hdatabase]
    rfl
  have hknown : database ∈ w.databases.map Prod.fst := Connections.mem_of_resolve (hdatabase who)
  have hbrackets : ∀ who, (w.saves cat calls who).Brackets database True 0 := fun who =>
    SaveCall.brackets_job (htarget who)
  have hkept : ∀ who, ∃ kept, survivors? Move.call (madeBy who moves) = some kept := fun who =>
    survivors_takeTurns hknown (hbrackets who) (hdone who)
  have hkeeps : ¬(calls who).options.PassesOver → ∀ x ∈ moves, x.who = who → x.call ≠ .rollback := by
    intro hforgives
    refine not_rollback_of_takeTurns (SaveCall.undoesToFail_job (htarget who) hforgives) (b := pk) ?_
    rw [← hok]
    exact hdone who
  have hundisturbed : Undisturbed moves who := by
    refine ⟨hlooks, fun inside hinside => ?_⟩
    by_cases hforgives : (calls who).options.PassesOver
    · exact hcloses hforgives inside hinside
    · obtain ⟨front, opened, closed, back, hsplit, -, ⟨hwho, hcall⟩, -⟩ := hinside
      have hmem : closed ∈ moves := by
        rw [hsplit]
        exact List.mem_append_right _ List.mem_cons_self
      exact absurd hcall (hkeeps hforgives closed hmem hwho)
  obtain ⟨kept, hown⟩ := hkept who
  obtain ⟨_, hother⟩ := hkept who.other
  refine ⟨kept, hown, fun hforgives x hx hstatement => ?_, fun m key hspares => ?_⟩
  · have hrun : ∀ x ∈ madeBy who moves, x.call ≠ .rollback := by
      intro x hx
      obtain ⟨hmem, hwho⟩ := List.mem_filter.mp hx
      exact hkeeps hforgives x hmem (by simpa using hwho)
    simpa [logOf] using (mem_logOf_of_foldlM (survivors?_eq_some.mp hown) hrun).2 x hx hstatement
  · have hshows := (moves_takeTurns hknown).shows hundisturbed hspares (survivors?_eq_some.mp hown)
      (survivors?_eq_some.mp hother)
    simpa [logOf] using hshows

/-! ## Folders and labels -/

namespace Desk

open Registry (built modelOf)

/-- Folders in folders, and labels. -/
def papers : List ModelDecl :=
  [{ name := "folder"
     fields := [.autoKey "id", { Field.of "parent" (.foreignKey "folder" (some "children")) with null := true },
       .of "size" .integer] },
   { name := "label", fields := [.autoKey "id", .of "size" .integer] }]

def folder : Model := modelOf (built papers) "folder"

def label : Model := modelOf (built papers) "label"

/-- Where there are no folders and no labels yet. -/
def desk : World := Retries.world papers []

/-- The schema of a folder with the folders in it. -/
def folders : Schema :=
  match Schema.build (built papers) {} "Folder" folder
    [{ name := "id" }, { name := "size" }, { name := "children", nested := some .self }] with
  | .ok s => s
  | .error _ => default

def labels : Schema := Retries.schemaOf papers "label" ["id", "size"]

/-- A folder is saved, and a label whose size is not told. -/
def unsized : Party → SaveCall
  | .first => ⟨folders, [("id", .int 7), ("size", .int 1)], {}, {}⟩
  | .second => ⟨labels, [], {}, {}⟩

/-- A folder is saved with another one in it whose size is not told, which may be passed over, and a label. -/
def unsizedWithin : Party → SaveCall
  | .first => ⟨folders, [("id", .int 7), ("size", .int 1), ("children", .list [.map []])], {}, { forgiveRelations := .all }⟩
  | .second => ⟨labels, [("size", .int 3)], {}, {}⟩

def results : Party → Outcome Value
  | .first => .ok (.int 7)
  | .second => .error (.notNullViolated "label" "size")

/-- The folder's transaction is begun while that of the label is open, and the folder is written afterwards. -/
def afterwards : List Party :=
  [.second, .first, .second, .second, .second, .first, .first, .first, .first, .first]

theorem saves_overlapping_afterwards :
    (∀ who, (unsized who).options.transaction = .main) ∧
    (∀ who, desk.connections.resolve (unsized who).context.database = .ok "default") ∧
    (∀ who, (takeTurns afterwards (desk.saves {} unsized) desk).1 who = .done (results who)) ∧
    results .first = .ok (.int 7) ∧
    (∀ inside, RolledBack (movesOn "default" afterwards (desk.saves {} unsized) desk) .second inside →
      ∀ x ∈ inside, x.who = .first → x.call.IsRead ∨ x.call = .begin) ∧
    ¬(unsized .first).options.PassesOver ∧
    (((takeTurns afterwards (desk.saves {} unsized) desk).2.database "default").store.row? folder (.int 7)).isSome := by
  have hmain : ∀ who, (unsized who).options.transaction = .main := by
    intro who
    cases who <;> rfl
  have hdatabase : ∀ who, desk.connections.resolve (unsized who).context.database = .ok "default" := by
    intro who
    cases who <;> rfl
  have hdone : ∀ who, (takeTurns afterwards (desk.saves {} unsized) desk).1 who = .done (results who) := by
    intro who
    cases who <;> rfl
  have hok : results .first = .ok (.int 7) := rfl
  have hlooks : ∀ inside, RolledBack (movesOn "default" afterwards (desk.saves {} unsized) desk) .second inside →
      ∀ x ∈ inside, x.who = .first → x.call.IsRead ∨ x.call = .begin := by
    intro inside hinside
    apply RolledBack.looks (show RolledBack _ Party.first.other inside from hinside)
    show List.Pairwise (_ : Move → Move → Prop) [⟨.second, .begin, _, _⟩, ⟨.first, .begin, _, _⟩,
      ⟨.second, .insert _ _, _, _⟩, ⟨.second, .rollback, _, _⟩, ⟨.first, .update _ _, _, _⟩, ⟨.first, .insert _ _, _, _⟩,
      ⟨.first, .commit, _, _⟩]
    simp [Party.other]
  have hforgives : ¬(unsized .first).options.PassesOver := by
    rintro (h | h) <;> cases h
  obtain ⟨kept, hkept, -, hshows⟩ := saves_overlapping {} unsized hmain hdatabase afterwards hdone hok hlooks
    fun h => absurd h hforgives
  obtain ⟨c, x, hsame, hwrites, hrow⟩ : ∃ c x, survivors? Move.call (madeBy .first
      (movesOn "default" afterwards (desk.saves {} unsized) desk)) = some [c, x] ∧ ¬x.call.IsRead ∧
      (x.after.row? folder (.int 7)).isSome := ⟨_, _, rfl, id, rfl⟩
  obtain rfl : kept = [c, x] := Option.some.inj (hkept.symm.trans hsame)
  refine ⟨hmain, hdatabase, hdone, rfl, hlooks, hforgives, ?_⟩
  rw [hshows folder (.int 7) ?_ [c] x [] rfl hwrites (by simp)]
  · exact hrow
  · have hspares : ∀ x ∈ movesOn "default" afterwards (desk.saves {} unsized) desk, x.who ≠ .first →
        x.after.row? folder (.int 7) = x.before.row? folder (.int 7) := by decide +kernel
    exact fun x hx hwho _ => hspares x hx hwho

/-- Two saves call the database in turns, each in a transaction, and each statement of theirs leaves the other one's
table. The first one succeeds in the end, and has written a folder; but the folder is not there. -/
def LosesFolder (calls : Party → SaveCall) (turns : List Party) : Prop :=
  (∀ who, (calls who).options.transaction = .main ∧
    desk.connections.resolve (calls who).context.database = .ok "default") ∧
  ((takeTurns turns (desk.saves {} calls) desk).1 .first).result?.bind Except.toOption = some (.int 7) ∧
  ((takeTurns turns (desk.saves {} calls) desk).1 .second).result?.isSome ∧
  (∀ x ∈ movesOn "default" turns (desk.saves {} calls) desk, x.call.IsStatement →
    (x.who = .first → x.after.table label = x.before.table label) ∧
    (x.who = .second → x.after.table folder = x.before.table folder)) ∧
  (∃ x ∈ movesOn "default" turns (desk.saves {} calls) desk, x.who = .first ∧ x.call.IsStatement ∧
    x.before.row? folder (.int 7) = none ∧ (x.after.row? folder (.int 7)).isSome) ∧
  ((takeTurns turns (desk.saves {} calls) desk).2.database "default").store.row? folder (.int 7) = none

/-- The folder is inserted while the label's transaction is open. -/
def meanwhile : List Party :=
  [.second, .first, .first, .first, .first, .first, .first, .first, .second, .second, .second]

/-- The label's transaction is closed while the one for the inner folder is open. -/
def crossing : List Party :=
  [.second, .first, .first, .first, .first, .first, .first, .first, .second, .second, .second, .first, .first, .first,
    .first, .first, .first, .first, .first]

/-- A folder is lost where it is inserted within a transaction that the label's save rolls back, and also, though both
saves succeed, where the other one's commit makes the rollback of the inner folder go back too far. -/
theorem folders_lost : LosesFolder unsized meanwhile ∧ LosesFolder unsizedWithin crossing := by
  refine ⟨⟨?_, by decide +kernel⟩, ⟨?_, by decide +kernel⟩⟩
  · intro who
    cases who <;> exact ⟨rfl, rfl⟩
  · intro who
    cases who <;> exact ⟨rfl, rfl⟩

end Desk

end World

end RecordMapper
