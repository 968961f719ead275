import RecordMapper.Proofs.Database.Runs
import RecordMapper.Proofs.Entries
import RecordMapper.Proofs.Steps.Running

/-!
# Transactions — what a job in a transaction leaves behind

A job that changes one database alone and closes what it opens there is
`Confined` to it. Statements are, and so is a confined job in a
transaction. A job in a transaction that fails moreover leaves every
database with the stores it had (`atomic_error`): the savepoint that
`begin` laid down is still the first one when `rollback` takes it.
-/

namespace RecordMapper

/-- A name that stands for a database is known. -/
theorem Connections.mem_of_resolve {c : Connections} {given : Option String} {name : String}
    (h : c.resolve given = .ok name) : name ∈ c.names := by
  rw [resolve] at h
  split at h
  · rename_i hmem
    cases h
    exact List.contains_iff_mem.mp hmem
  · cases h

namespace World

/-! ## Comparing worlds -/

/-- The databases of a world, and their stores and savepoints, are those of another. -/
structure SameStores (w w' : World) : Prop where
  names : w'.databases.map Prod.fst = w.databases.map Prod.fst
  stores : ∀ name, (w'.database name).stores = (w.database name).stores

/-- The databases of a world and their savepoints are those of another. -/
structure SameSavepoints (w w' : World) : Prop where
  names : w'.databases.map Prod.fst = w.databases.map Prod.fst
  savepoints : ∀ name, (w'.database name).savepoints = (w.database name).savepoints

/-- The savepoints of a world are those of another, and so are the stores of all databases but one. -/
structure Confined (database : String) (w w' : World) : Prop extends SameSavepoints w w' where
  others : ∀ name, name ≠ database → (w'.database name).store = (w.database name).store

/-- A transaction is open on one database of a world: its savepoints are the stores that the database has
in another world, where all other databases have the stores they have here. -/
structure Begun (database : String) (w w' : World) : Prop where
  names : w'.databases.map Prod.fst = w.databases.map Prod.fst
  saved : (w'.database database).savepoints = (w.database database).stores
  others : ∀ name, name ≠ database → (w'.database name).stores = (w.database name).stores

theorem SameStores.refl (w : World) : SameStores w w := ⟨rfl, fun _ => rfl⟩

theorem SameStores.confined {w w' : World} (h : SameStores w w') (database : String) :
    Confined database w w' where
  names := h.names
  savepoints name := (List.cons.inj (h.stores name)).2
  others name _ := (List.cons.inj (h.stores name)).1

theorem confined_composes (database : String) : Job.Composes (Confined database) where
  refl w := (SameStores.refl w).confined database
  trans h h' := {
    names := h'.names.trans h.names
    savepoints := fun name => (h'.savepoints name).trans (h.savepoints name)
    others := fun name hn => (h'.others name hn).trans (h.others name hn) }

/-! ## Calls -/

variable {w : World} {name : String}

@[simp] theorem database_ticked (w : World) (name : String) : w.ticked.database name = w.database name :=
  rfl

@[simp] theorem database_setDatabase_self (w : World) (name : String) (db : Database) :
    (w.setDatabase name db).database name = db := by
  rw [database, setDatabase, lookup_insertEntry_self]
  rfl

theorem database_setDatabase_ne {other : String} (db : Database) (h : other ≠ name) :
    (w.setDatabase name db).database other = w.database other := by
  rw [database, setDatabase, lookup_insertEntry_ne _ h, database]

theorem perform_unknown (h : name ∉ w.databases.map Prod.fst) (c : Call) :
    w.perform name c = (.error (.unknownDatabase name), w) := by
  rw [perform, lookup_eq_none_iff_not_mem_keys.mpr h]

theorem perform_known (h : name ∈ w.databases.map Prod.fst) (c : Call) :
    w.perform name c = (((w.database name).perform w.registry w.clock c).1,
      (w.setDatabase name ((w.database name).perform w.registry w.clock c).2).ticked) := by
  obtain ⟨db, hdb⟩ := Option.isSome_iff_exists.mp (lookup_isSome_iff_mem_keys.mpr h)
  rw [perform, database, hdb]
  rfl

theorem names_perform (w : World) (name : String) (c : Call) :
    (w.perform name c).2.databases.map Prod.fst = w.databases.map Prod.fst := by
  by_cases h : name ∈ w.databases.map Prod.fst
  · rw [perform_known h]
    exact keys_insertEntry_of_mem _ h
  · rw [perform_unknown h]

theorem database_perform_self (h : name ∈ w.databases.map Prod.fst) (c : Call) :
    (w.perform name c).2.database name = ((w.database name).perform w.registry w.clock c).2 := by
  rw [perform_known h]
  simp

theorem database_perform_ne {other : String} (h : other ≠ name) (c : Call) :
    (w.perform name c).2.database other = w.database other := by
  by_cases hn : name ∈ w.databases.map Prod.fst
  · rw [perform_known hn]
    exact database_setDatabase_ne _ h
  · rw [perform_unknown hn]

end World

namespace Job

open World

variable {α : Type} {database : String}

/-- A statement changes its database alone and no savepoint. -/
theorem ask_confined {c : Call} (h : c.IsStatement) : Keeps (Confined database) (ask database c) := by
  intro w
  rw [runJob_ask]
  constructor
  case others => exact fun name hne => by rw [database_perform_ne hne]
  refine ⟨names_perform w database c, fun name => ?_⟩
  by_cases hn : name = database
  · subst hn
    by_cases hk : name ∈ w.databases.map Prod.fst
    · rw [database_perform_self hk, Database.savepoints_perform h]
    · rw [perform_unknown hk]
  · rw [database_perform_ne hn]

theorem clock_confined : Keeps (Confined database) clock := by
  intro w
  exact (SameStores.mk rfl fun _ => rfl : SameStores w w.ticked).confined database

theorem runJob_atomic_unknown {w : World} (h : database ∉ w.databases.map Prod.fst) (j : Job α) :
    w.runJob (atomic database j) = (.error (.unknownDatabase database), w) := by
  refine (runJob_bind (ask database .begin) _ w).trans ?_
  rw [runJob_ask, perform_unknown h]

theorem runJob_atomic_known {w : World} (h : database ∈ w.databases.map Prod.fst) (j : Job α) :
    w.runJob (atomic database j) =
      match (w.perform database .begin).2.runJob j with
      | (.ok a, w') => w'.runJob (do ask database .commit; return a)
      | (.error f, w') => (.error f, (w'.perform database .rollback).2) := by
  have hbegin : (w.runJob (ask database .begin)).1 = .ok () := by
    rw [runJob_ask, perform_known h]
    rfl
  refine (runJob_bind (ask database .begin) _ w).trans ?_
  rw [hbegin, runJob_ask]
  show World.runJob (attempt j >>= _) _ = _
  rw [runJob_bind, runJob_attempt]
  rcases (w.perform database .begin).2.runJob j with ⟨r, w'⟩
  cases r with
  | ok a => rfl
  | error f =>
      show World.runJob (attempt (ask database .rollback) >>= _) w' = _
      rw [runJob_bind, runJob_attempt]
      rfl

/-! ## Inside a transaction -/

theorem begun_perform {w : World} (h : database ∈ w.databases.map Prod.fst) :
    Begun database w (w.perform database .begin).2 where
  names := names_perform w database .begin
  saved := by
    rw [database_perform_self h]
    rfl
  others name hne := by rw [database_perform_ne hne]

section Begun

variable {w w' : World} (hw : Begun database w w')

include hw

/-- A confined job leaves open the transaction it runs in. -/
theorem begun_of_confined {w'' : World} (hc : Confined database w' w'') : Begun database w w'' where
  names := hc.names.trans hw.names
  saved := (hc.savepoints database).trans hw.saved
  others name hne := by
    rw [← hw.others name hne, Database.stores, Database.stores, hc.others name hne, hc.savepoints name]

variable (h : database ∈ w.databases.map Prod.fst)

include h

/-- Ending a transaction succeeds and takes off the latest savepoint. -/
theorem perform_commit : (w'.perform database .commit).1 = .ok () ∧
    Confined database w (w'.perform database .commit).2 := by
  have hknown : database ∈ w'.databases.map Prod.fst := hw.names ▸ h
  have hlogged : ((w'.database database).logged (Call.statement? .commit)).savepoints =
      (w.database database).store :: (w.database database).savepoints := hw.saved
  constructor
  · rw [perform_known hknown, Database.perform, Database.commit, hlogged]
    rfl
  · refine ⟨⟨(names_perform w' database .commit).trans hw.names, fun name => ?_⟩, fun name hne => ?_⟩
    · by_cases hn : name = database
      · subst hn
        rw [database_perform_self hknown, Database.perform, Database.commit, hlogged]
      · rw [database_perform_ne hn]
        exact (List.cons.inj (hw.others name hn)).2
    · rw [database_perform_ne hne]
      exact (List.cons.inj (hw.others name hne)).1

/-- Undoing a transaction brings back the latest savepoint. -/
theorem perform_rollback : SameStores w (w'.perform database .rollback).2 := by
  have hknown : database ∈ w'.databases.map Prod.fst := hw.names ▸ h
  refine ⟨(names_perform w' database .rollback).trans hw.names, fun name => ?_⟩
  by_cases hn : name = database
  · subst hn
    have hlogged : ((w'.database name).logged (Call.statement? .rollback)).savepoints =
        (w.database name).store :: (w.database name).savepoints := hw.saved
    rw [database_perform_self hknown, Database.perform, Database.rollback, hlogged]
    rfl
  · rw [database_perform_ne hn]
    exact hw.others name hn

end Begun

/-- What a confined job in a transaction leaves: a confined change, and after a failure the stores as
they were. -/
theorem atomic_leaves {j : Job α} (hj : Keeps (Confined database) j) (w : World) :
    Confined database w (w.runJob (atomic database j)).2 ∧
      ∀ f, (w.runJob (atomic database j)).1 = .error f →
        SameStores w (w.runJob (atomic database j)).2 := by
  by_cases h : database ∈ w.databases.map Prod.fst
  · rw [runJob_atomic_known h]
    -- The savepoint that `begin` laid down is still there when the job is done.
    have hrun := hj (w.perform database .begin).2
    rcases hr : (w.perform database .begin).2.runJob j with ⟨r, w'⟩
    rw [hr] at hrun
    have hw : Begun database w w' := begun_of_confined (begun_perform h) hrun
    cases r with
    | ok a =>
        obtain ⟨hok, hconfined⟩ := perform_commit hw h
        have hcommit : w'.runJob (do ask database .commit; return a) =
            (.ok a, (w'.perform database .commit).2) := by
          refine (runJob_bind (ask database .commit) _ w').trans ?_
          rw [runJob_ask, hok]
          rfl
        simp only [hcommit]
        exact ⟨hconfined, fun f hf => by cases hf⟩
    | error f =>
        have hsame : SameStores w (w'.perform database .rollback).2 := perform_rollback hw h
        exact ⟨hsame.confined database, fun _ _ => hsame⟩
  · -- Nothing begins on a database that is not there.
    rw [runJob_atomic_unknown h]
    exact ⟨(SameStores.refl w).confined database, fun _ _ => SameStores.refl w⟩

theorem atomic_confined {j : Job α} (hj : Keeps (Confined database) j) :
    Keeps (Confined database) (atomic database j) :=
  fun w => (atomic_leaves hj w).1

/-- A failure in a transaction leaves every database with the stores and savepoints it had. -/
theorem atomic_error {j : Job α} (hj : Keeps (Confined database) j) {w : World} {f : Failure}
    (h : (w.runJob (atomic database j)).1 = .error f) :
    SameStores w (w.runJob (atomic database j)).2 :=
  (atomic_leaves hj w).2 f h

end Job

end RecordMapper

/-!
## Logs — which databases a job sends statements to

Every statement is logged by the database that executes it, and no call
takes a statement out of a log. So a database that was sent nothing is
the one it was, its log included (`TouchesOnly`), and one that was sent
a statement has more of them (`Sends`), whatever else is done.
-/

namespace RecordMapper

/-! ## Untouched databases -/

namespace World

/-- No database has changed, its log included, but those in question. -/
def TouchesOnly (among : String → Prop) (w w' : World) : Prop :=
  ∀ name, ¬among name → w'.database name = w.database name

variable {among : String → Prop}

theorem touchesOnly_composes : Job.Composes (TouchesOnly among) where
  refl _ _ _ := rfl
  trans h h' name hname := (h' name hname).trans (h name hname)

theorem TouchesOnly.mono {among' : String → Prop} {w w' : World} (h : TouchesOnly among w w')
    (himp : ∀ name, among name → among' name) : TouchesOnly among' w w' :=
  fun name hname => h name fun hmem => hname (himp name hmem)

theorem touchesOnly_perform {database : String} (h : among database) (c : Call) (w : World) :
    TouchesOnly among w (w.perform database c).2 := by
  intro name hname
  refine database_perform_ne (fun heq => hname ?_) c
  exact heq ▸ h

end World

/-! ## Logs that grow -/

/-- A call adds to the log the statement that it is, if it is one. -/
theorem Database.log_perform (reg : Registry) (now : Instant) (db : Database) (c : Call) :
    (db.perform reg now c).2.log = db.log ++ c.statement?.toList := by
  have hchanged : ∀ {α : Type} (db : Database) (r : Outcome (α × Store)), (db.changed r).2.log = db.log := by
    intro α db r
    cases r <;> rfl
  cases c with
  | fetch qs columns => rfl
  | count qs => rfl
  | insert m values => exact hchanged _ _
  | insertChild m values => exact hchanged _ _
  | update qs values =>
      rw [perform]
      split
      · rfl
      · exact hchanged _ _
  | delete qs =>
      rw [perform]
      split
      · rfl
      · exact hchanged _ _
  | begin => rfl
  | commit =>
      show (Database.commit _).2.log = _
      unfold Database.commit
      split <;> rfl
  | rollback =>
      show (Database.rollback _).2.log = _
      unfold Database.rollback
      split <;> rfl

namespace World

variable {α β : Type}

/-- No statement of a log is lost. -/
theorem statementCount_perform (w : World) (name database : String) (c : Call) :
    (w.database name).statementCount ≤ ((w.perform database c).2.database name).statementCount := by
  by_cases hname : name = database
  · subst hname
    by_cases hknown : name ∈ w.databases.map Prod.fst
    · rw [database_perform_self hknown, Database.statementCount, Database.statementCount, Database.log_perform,
        List.length_append]
      exact Nat.le_add_right _ _
    · exact Nat.le_of_eq (by rw [perform_unknown hknown])
  · exact Nat.le_of_eq (by rw [database_perform_ne hname])

theorem statementCount_run (s : Steps α) (w : World) (name : String) :
    (w.database name).statementCount ≤ ((w.run s).2.database name).statementCount := by
  induction s generalizing w with
  | done a => exact Nat.le_refl _
  | ask database c next ih => exact Nat.le_trans (statementCount_perform w name database c) (ih _ _)
  | clock next ih => exact ih _ w.ticked

/-- What follows a computation loses no statement of it. -/
theorem statementCount_run_bind (s : Steps α) (f : α → Steps β) (w : World) (name : String) :
    ((w.run s).2.database name).statementCount ≤ ((w.run (s.bind f)).2.database name).statementCount := by
  rw [run_bind]
  exact statementCount_run _ _ _

end World

namespace Job

variable {α β : Type} {database : String}

/-- A job sends a statement to a database wherever it is known. -/
def Sends (database : String) (j : Job α) : Prop :=
  ∀ w : World, database ∈ w.databases.map Prod.fst →
    (w.database database).statementCount < ((w.runJob j).2.database database).statementCount

namespace Sends

theorem bind {j : Job α} (h : Sends database j) (k : α → Job β) : Sends database (j >>= k) :=
  fun w hknown => Nat.lt_of_lt_of_le (h w hknown) (World.statementCount_run_bind j.run _ w database)

theorem ofOutcome_bind {r : Outcome α} {a : α} (hr : r = .ok a) {k : α → Job β} (h : Sends database (k a)) :
    Sends database (Job.ofOutcome r >>= k) := by
  intro w hknown
  rw [World.runJob_ofOutcome_bind hr]
  exact h w hknown

theorem attempt {j : Job α} (h : Sends database j) : Sends database (Job.attempt j) := by
  intro w hknown
  rw [World.runJob_attempt]
  exact h w hknown

theorem fetch {qs : Queryset} (hsome : qs.isNone = false) (columns : List SelectColumn) :
    Sends database (Job.fetch database qs columns) := by
  intro w hknown
  show _ < ((w.perform database (.fetch qs columns)).2.database database).statementCount
  rw [World.database_perform_self hknown, Database.statementCount, Database.statementCount, Database.log_perform,
    List.length_append, Call.statement?, hsome]
  exact Nat.lt_succ_self _

end Sends

end Job

end RecordMapper
