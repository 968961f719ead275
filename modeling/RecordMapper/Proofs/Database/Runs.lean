import Mathlib.Data.List.Induction
import RecordMapper.Database
import RecordMapper.Proofs.Outcomes
import RecordMapper.Proofs.Store.Selection

/-!
# Runs — every store a database goes through

A run is a sequence of calls, each at its time and each free to fail. The
stores of a database are the present one and those its open transactions
return to. A call adds at most one store to them, the one that a write
leaves when it succeeds (`mem_stores_perform`), so a property of all the
stores of a run needs a step for successful writes alone
(`Reached.induction`).
-/

namespace RecordMapper

/-- A call that is a statement, not the begin or the end of a transaction. -/
def Call.IsStatement : Call → Prop
  | .begin => False
  | .commit => False
  | .rollback => False
  | _ => True

instance : DecidablePred Call.IsStatement
  | .fetch .. => isTrue trivial
  | .count _ => isTrue trivial
  | .insert .. => isTrue trivial
  | .insertChild .. => isTrue trivial
  | .update .. => isTrue trivial
  | .delete _ => isTrue trivial
  | .begin => isFalse id
  | .commit => isFalse id
  | .rollback => isFalse id

/-- The store that a write leaves when it succeeds. -/
inductive Call.Leaves (reg : Registry) (now : Instant) (st : Store) : Call → Store → Prop where
  | insert {m : Model} {values : Record} {pk : Value} {st' : Store}
      (h : Store.insert reg now st m values = .ok (pk, st')) : Leaves reg now st (.insert m values) st'
  | insertChild {m : Model} {values : Record} {st' : Store}
      (h : Store.insertChild reg now st m values = .ok st') :
      Leaves reg now st (.insertChild m values) st'
  | update {qs : Queryset} {values : Record} {n : Nat} {st' : Store}
      (h : Store.update reg st qs values = .ok (n, st')) : Leaves reg now st (.update qs values) st'
  | delete {qs : Queryset} {n : Nat} {st' : Store} (h : Store.delete reg st qs = .ok (n, st')) :
      Leaves reg now st (.delete qs) st'

namespace Database

variable {reg : Registry} {now : Instant} {db : Database} {c : Call} {st : Store}

/-! ## Statements -/

private theorem changed_cases {α : Type} {S : Store → Prop} (db : Database) {r : Outcome (α × Store)}
    (h : ∀ a after, r = .ok (a, after) → S after) :
    (db.changed r).2 = db ∨ ∃ after, S after ∧ (db.changed r).2 = { db with store := after } := by
  rcases r with f | ⟨a, after⟩
  · exact .inl rfl
  · exact .inr ⟨after, h a after rfl, rfl⟩

/-- All that a statement does: it is logged, and may leave the store of a write that succeeds. -/
theorem perform_statement (reg : Registry) (now : Instant) (db : Database) (hc : c.IsStatement) :
    (db.perform reg now c).2 = db.logged c.statement? ∨
      ∃ after, c.Leaves reg now db.store after ∧
        (db.perform reg now c).2 = { db.logged c.statement? with store := after } := by
  cases c with
  | fetch qs columns => exact .inl rfl
  | count qs => exact .inl rfl
  | insert m values => exact changed_cases _ fun _ _ h => .insert h
  | insertChild m values =>
      refine changed_cases _ fun _ _ h => .insertChild ?_
      obtain ⟨after, hafter, he⟩ := Outcome.map_eq_ok.mp h
      cases he
      exact hafter
  | update qs values =>
      rw [perform]
      split
      · exact .inl rfl
      · exact changed_cases _ fun _ _ h => .update h
  | delete qs =>
      rw [perform]
      split
      · exact .inl rfl
      · exact changed_cases _ fun _ _ h => .delete h
  | begin => exact hc.elim
  | commit => exact hc.elim
  | rollback => exact hc.elim

/-- What a statement leaves is the store as it was or what a write leaves that succeeds. -/
theorem store_perform (reg : Registry) (now : Instant) (db : Database) (hc : c.IsStatement) :
    (db.perform reg now c).2.store = db.store ∨ c.Leaves reg now db.store (db.perform reg now c).2.store := by
  rcases perform_statement reg now db hc with h | ⟨after, hleaves, h⟩
  · rw [h]
    exact .inl rfl
  · rw [h]
    exact .inr hleaves

theorem savepoints_perform (hc : c.IsStatement) : (db.perform reg now c).2.savepoints = db.savepoints := by
  rcases perform_statement reg now db hc with h | ⟨after, _, h⟩
  · rw [h]
    rfl
  · rw [h]
    rfl

/-! ## Stores -/

/-- The present store and those that open transactions return to. -/
def stores (db : Database) : List Store := db.store :: db.savepoints

/-- A call adds at most the store of a write that succeeded. -/
theorem mem_stores_perform (h : st ∈ (db.perform reg now c).2.stores) :
    st ∈ db.stores ∨ c.Leaves reg now db.store st := by
  have hstatement : c.IsStatement → st ∈ db.stores ∨ c.Leaves reg now db.store st := by
    intro hc
    rw [stores, savepoints_perform hc] at h
    rcases List.mem_cons.mp h with rfl | hmem
    · rcases store_perform reg now db hc with hsame | hleaves
      · rw [hsame]
        exact .inl List.mem_cons_self
      · exact .inr hleaves
    · exact .inl (List.mem_cons_of_mem _ hmem)
  cases c with
  | begin =>
      -- The present store is laid down a second time.
      rcases List.mem_cons.mp h with rfl | hmem
      · exact .inl List.mem_cons_self
      · exact .inl hmem
  | commit =>
      obtain ⟨store, savepoints, log⟩ := db
      cases savepoints with
      | nil => exact .inl h
      | cons before rest =>
          rcases List.mem_cons.mp h with rfl | hmem
          · exact .inl List.mem_cons_self
          · exact .inl (List.mem_cons_of_mem _ (List.mem_cons_of_mem _ hmem))
  | rollback =>
      obtain ⟨store, savepoints, log⟩ := db
      cases savepoints with
      | nil => exact .inl h
      | cons before rest => exact .inl (List.mem_cons_of_mem _ h)
  | _ => exact hstatement trivial

theorem store_perform_insertChild {m : Model} {values : Record} {after : Store}
    (h : Store.insertChild reg now db.store m values = .ok after) :
    (db.perform reg now (.insertChild m values)).2.store = after := by
  show ((db.logged _).changed ((Store.insertChild reg now db.store m values).map _)).2.store = after
  rw [h]
  rfl

theorem store_perform_insert {m : Model} {values : Record} {pk : Value} {after : Store}
    (h : Store.insert reg now db.store m values = .ok (pk, after)) :
    (db.perform reg now (.insert m values)).2.store = after := by
  show ((db.logged _).changed (Store.insert reg now db.store m values)).2.store = after
  rw [h]
  rfl

/-- Counting a queryset tells the number of rows it selects. -/
theorem perform_count {qs : Queryset} {rows : List Value} (h : Store.select reg db.store qs = .ok rows) (now : Instant) :
    (db.perform reg now (.count qs)).1 = .ok rows.length := by
  simp only [perform]
  split
  · rename_i hnone
    rw [Store.select_of_isNone hnone] at h
    cases h
    rfl
  · show Except.map List.length (Store.select reg db.store qs) = _
    rw [h]
    rfl

/-! ## Runs from the empty database -/

/-- The database after a sequence of calls. -/
def play (reg : Registry) (db : Database) (calls : List (Instant × Call)) : Database :=
  calls.foldl (fun db c => (db.perform reg c.1 c.2).2) db

theorem play_append (reg : Registry) (db : Database) (calls more : List (Instant × Call)) :
    db.play reg (calls ++ more) = (db.play reg calls).play reg more :=
  List.foldl_append

/-- A store of the database at some point of a run, before its first call, between two or at its end. -/
def Reached (reg : Registry) (calls : List (Instant × Call)) (st : Store) : Prop :=
  ∃ done, done <+: calls ∧ st ∈ (empty.play reg done).stores

theorem reached_present {calls done : List (Instant × Call)} (h : done <+: calls) :
    Reached reg calls (empty.play reg done).store :=
  ⟨done, h, List.mem_cons_self⟩

section Split

variable {calls done rest : List (Instant × Call)} (hsplit : calls = done ++ (now, c) :: rest)

include hsplit

theorem mem_of_split : (now, c) ∈ calls := by
  rw [hsplit]
  exact List.mem_append_right _ List.mem_cons_self

theorem reached_before : Reached reg calls (empty.play reg done).store :=
  reached_present ⟨_, hsplit.symm⟩

/-- The store after a call of a run is a store of the run. -/
theorem reached_next : Reached reg calls ((empty.play reg done).perform reg now c).2.store := by
  have hplay : (empty.play reg (done ++ [(now, c)])) = ((empty.play reg done).perform reg now c).2 :=
    play_append ..
  rw [← hplay]
  refine reached_present ⟨rest, ?_⟩
  rw [hsplit, List.append_assoc]
  rfl

end Split

/-- What holds of the empty store, and of every store of the run that a successful write leaves, holds of
every store of the run. -/
theorem Reached.induction_reached {calls : List (Instant × Call)} {Q : Store → Prop} (h : Reached reg calls st)
    (hempty : Q Store.empty)
    (hstep : ∀ done now c rest, calls = done ++ (now, c) :: rest → Q (empty.play reg done).store →
      ∀ st', c.Leaves reg now (empty.play reg done).store st' → Reached reg calls st' → Q st') : Q st := by
  obtain ⟨done, hdone, hmem⟩ := h
  induction done using List.reverseRecOn generalizing st with
  | nil =>
      rw [List.mem_singleton.mp hmem]
      exact hempty
  | append_singleton done c ih =>
      have hreached : Reached reg calls st := ⟨_, hdone, hmem⟩
      obtain ⟨now, c⟩ := c
      obtain ⟨rest, hrest⟩ := hdone
      have hprefix : done <+: calls := ⟨(now, c) :: rest, by rw [← hrest, List.append_assoc]; rfl⟩
      rw [play_append] at hmem
      rcases mem_stores_perform hmem with hold | hleaves
      · exact ih hprefix hold
      · have hsplit : calls = done ++ (now, c) :: rest := by
          rw [← hrest, List.append_assoc]
          rfl
        exact hstep done now c rest hsplit (ih hprefix List.mem_cons_self) st hleaves hreached

theorem Reached.induction {calls : List (Instant × Call)} {Q : Store → Prop} (h : Reached reg calls st)
    (hempty : Q Store.empty)
    (hstep : ∀ done now c rest, calls = done ++ (now, c) :: rest → Q (empty.play reg done).store →
      ∀ st', c.Leaves reg now (empty.play reg done).store st' → Q st') : Q st :=
  h.induction_reached hempty fun done now c rest hsplit hq st' hleaves _ =>
    hstep done now c rest hsplit hq st' hleaves

end Database

end RecordMapper
