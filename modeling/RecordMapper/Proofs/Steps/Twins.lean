import RecordMapper.Proofs.Steps.Made
import RecordMapper.Proofs.Steps.Transactions
import RecordMapper.Proofs.Outcomes

/-!
# Twins — worlds that computations cannot tell apart

Worlds are `Alike` if their databases have the same stores in front, and
`Twin` if the savepoints behind are the same too. What was logged makes
no difference. While the clock stands still, any computation does the
same in twins and leaves twins (`run_twin`). A job made of statements
and transactions, which closes whatever it opens, does the same in
worlds that are merely alike (`Made.blind`), however many transactions
are open around it.
-/

namespace RecordMapper

/-! ## Databases -/

namespace Database

variable {reg : Registry} {now : Instant} {db db' : Database}

private theorem changed_congr {α : Type} (db db' : Database) (h : db'.store = db.store)
    (r : Outcome (α × Store)) :
    (db'.changed r).1 = (db.changed r).1 ∧ (db'.changed r).2.store = (db.changed r).2.store := by
  rcases r with f | ⟨a, st⟩
  · exact ⟨rfl, h⟩
  · exact ⟨rfl, rfl⟩

/-- What a statement answers and the store it leaves are told by the store. -/
theorem perform_congr (h : db'.store = db.store) {c : Call} (hc : c.IsStatement) :
    (db'.perform reg now c).1 = (db.perform reg now c).1 ∧
      (db'.perform reg now c).2.store = (db.perform reg now c).2.store := by
  have hchanged : ∀ {α : Type} (r : Outcome (α × Store)), _ :=
    fun r => changed_congr (db.logged c.statement?) (db'.logged c.statement?) h r
  obtain ⟨store, savepoints, log⟩ := db
  obtain ⟨store', savepoints', log'⟩ := db'
  obtain rfl : store' = store := h
  cases c with
  | fetch qs columns => exact ⟨rfl, rfl⟩
  | count qs => exact ⟨rfl, rfl⟩
  | insert m values => exact hchanged _
  | insertChild m values => exact hchanged _
  | update qs values =>
      simp only [perform]
      split
      · exact ⟨rfl, rfl⟩
      · exact hchanged _
  | delete qs =>
      simp only [perform]
      split
      · exact ⟨rfl, rfl⟩
      · exact hchanged _
  | begin => exact hc.elim
  | commit => exact hc.elim
  | rollback => exact hc.elim

/-- What a call answers and the stores it leaves are told by the stores. -/
theorem perform_twin (h : db'.stores = db.stores) (c : Call) :
    (db'.perform reg now c).1 = (db.perform reg now c).1 ∧
      (db'.perform reg now c).2.stores = (db.perform reg now c).2.stores := by
  obtain ⟨hstore, hsaved⟩ := List.cons.inj h
  have hstatement : c.IsStatement → (db'.perform reg now c).1 = (db.perform reg now c).1 ∧
      (db'.perform reg now c).2.stores = (db.perform reg now c).2.stores := fun hc => by
    obtain ⟨hanswer, hleft⟩ : (db'.perform reg now c).1 = (db.perform reg now c).1 ∧
        (db'.perform reg now c).2.store = (db.perform reg now c).2.store := perform_congr hstore hc
    refine ⟨hanswer, ?_⟩
    rw [stores, stores, hleft, savepoints_perform hc, savepoints_perform hc, hsaved]
  obtain ⟨store, savepoints, log⟩ := db
  obtain ⟨store', savepoints', log'⟩ := db'
  obtain rfl : store' = store := hstore
  obtain rfl : savepoints' = savepoints := hsaved
  cases c with
  | begin => exact ⟨rfl, rfl⟩
  | commit => cases savepoints' <;> exact ⟨rfl, rfl⟩
  | rollback => cases savepoints' <;> exact ⟨rfl, rfl⟩
  | _ => exact hstatement trivial

end Database

/-! ## Worlds -/

namespace World

/-- The clock of a world stands still. -/
def Still (w : World) : Prop := w.clock.later w.tick = w.clock

/-- Worlds with the same models, the same time and the same stores in front. -/
structure Alike (w w' : World) : Prop where
  names : w'.databases.map Prod.fst = w.databases.map Prod.fst
  registry : w'.registry = w.registry
  clock : w'.clock = w.clock
  tick : w'.tick = w.tick
  store : ∀ name, (w'.database name).store = (w.database name).store

/-- Worlds that are alike down to their savepoints. -/
structure Twin (w w' : World) : Prop extends Alike w w' where
  savepoints : ∀ name, (w'.database name).savepoints = (w.database name).savepoints

variable {w w' w'' : World} {α β : Type}

theorem Alike.refl (w : World) : Alike w w := ⟨rfl, rfl, rfl, rfl, fun _ => rfl⟩

theorem Alike.symm (h : Alike w w') : Alike w' w :=
  ⟨h.names.symm, h.registry.symm, h.clock.symm, h.tick.symm, fun name => (h.store name).symm⟩

theorem Alike.trans (h : Alike w w') (h' : Alike w' w'') : Alike w w'' where
  names := h'.names.trans h.names
  registry := h'.registry.trans h.registry
  clock := h'.clock.trans h.clock
  tick := h'.tick.trans h.tick
  store name := (h'.store name).trans (h.store name)

theorem Twin.refl (w : World) : Twin w w := ⟨.refl w, fun _ => rfl⟩

theorem Twin.symm (h : Twin w w') : Twin w' w := ⟨h.toAlike.symm, fun name => (h.savepoints name).symm⟩

theorem Twin.trans (h : Twin w w') (h' : Twin w' w'') : Twin w w'' :=
  ⟨h.toAlike.trans h'.toAlike, fun name => (h'.savepoints name).trans (h.savepoints name)⟩

theorem Twin.sameStores (h : Twin w w') : SameStores w w' where
  names := h.names
  stores name := by rw [Database.stores, Database.stores, h.store name, h.savepoints name]

/-- Worlds that are alike and have the savepoints of a third one have the same stores. -/
theorem Alike.sameStores {w₀ : World} (h : Alike w w') (hsaved : SameSavepoints w₀ w)
    (hsaved' : SameSavepoints w₀ w') : SameStores w w' :=
  (Twin.mk h fun name => (hsaved'.savepoints name).trans (hsaved.savepoints name).symm).sameStores

theorem Twin.stores (h : Twin w w') (name : String) : (w'.database name).stores = (w.database name).stores :=
  h.sameStores.stores name

theorem Alike.still (h : Alike w w') (hw : w.Still) : w'.Still := by
  rw [Still, h.clock, h.tick]
  exact hw

/-! ## What a run leaves alone -/

theorem registry_perform (w : World) (name : String) (c : Call) :
    (w.perform name c).2.registry = w.registry := by
  unfold perform
  split <;> rfl

theorem registry_run (s : Steps α) (w : World) : (run s w).2.registry = w.registry := by
  induction s generalizing w with
  | done a => rfl
  | ask name c next ih => exact (ih _ (w.perform name c).2).trans (registry_perform w name c)
  | clock next ih => exact ih _ w.ticked

theorem main_run (s : Steps α) (w : World) : (run s w).2.main = w.main := by
  have hperform : ∀ (w : World) (name : String) (c : Call), (w.perform name c).2.main = w.main := by
    intro w name c
    unfold perform
    split <;> rfl
  induction s generalizing w with
  | done a => rfl
  | ask name c next ih => exact (ih _ (w.perform name c).2).trans (hperform w name c)
  | clock next ih => exact ih _ w.ticked

theorem names_run (s : Steps α) (w : World) :
    (run s w).2.databases.map Prod.fst = w.databases.map Prod.fst := by
  induction s generalizing w with
  | done a => rfl
  | ask name c next ih => exact (ih _ (w.perform name c).2).trans (names_perform w name c)
  | clock next ih => exact ih _ w.ticked

/-- A clock that stands still shows the same time after a call. -/
theorem clock_perform (hw : w.Still) (name : String) (c : Call) :
    (w.perform name c).2.clock = w.clock ∧ (w.perform name c).2.tick = w.tick := by
  unfold perform
  split
  · exact ⟨rfl, rfl⟩
  · exact ⟨hw, rfl⟩

theorem still_perform (hw : w.Still) (name : String) (c : Call) : (w.perform name c).2.Still := by
  obtain ⟨hclock, htick⟩ := clock_perform hw name c
  rw [Still, hclock, htick]
  exact hw

theorem Still.ticked (hw : w.Still) : w.ticked = w := by
  obtain ⟨registry, databases, main, clock, tick⟩ := w
  exact congrArg (World.mk registry databases main · tick) hw

theorem run_ask (w : World) (name : String) (c : Call) (next : Outcome c.Reply → Steps α) :
    run (.ask name c next) w = run (next (w.perform name c).1) (w.perform name c).2 := rfl

theorem run_clock (hw : w.Still) (next : Instant → Steps α) : run (.clock next) w = run (next w.clock) w := by
  rw [run, hw.ticked]

/-- A clock that stands still shows the same time after a run. -/
theorem clock_run (hw : w.Still) (s : Steps α) : (run s w).2.clock = w.clock ∧ (run s w).2.tick = w.tick := by
  induction s generalizing w with
  | done a => exact ⟨rfl, rfl⟩
  | ask name c next ih =>
      obtain ⟨hclock, htick⟩ := clock_perform hw name c
      obtain ⟨hclock', htick'⟩ := ih _ (still_perform hw name c)
      exact ⟨hclock'.trans hclock, htick'.trans htick⟩
  | clock next ih =>
      rw [run_clock hw]
      exact ih w.clock hw

theorem still_run (hw : w.Still) (s : Steps α) : (run s w).2.Still := by
  obtain ⟨hclock, htick⟩ := clock_run hw s
  rw [Still, hclock, htick]
  exact hw

theorem still_runJob (hw : w.Still) (j : Job α) : (w.runJob j).2.Still :=
  still_run hw j.run

/-- Worlds that runs from one time lead to are alike if their stores in front are. -/
theorem Alike.of_run (h : Alike w w') (hw : w.Still) (s : Steps α) (s' : Steps β)
    (hstore : ∀ name, ((run s' w').2.database name).store = ((run s w).2.database name).store) :
    Alike (run s w).2 (run s' w').2 where
  names := by rw [names_run, names_run, h.names]
  registry := by rw [registry_run, registry_run, h.registry]
  clock := by rw [(clock_run (h.still hw) s').1, (clock_run hw s).1, h.clock]
  tick := by rw [(clock_run (h.still hw) s').2, (clock_run hw s).2, h.tick]
  store := hstore

/-- A run that leaves the stores leaves a twin. -/
theorem SameStores.twin (hw : w.Still) {s : Steps α} (h : SameStores w (run s w).2) : Twin w (run s w).2 where
  toAlike := Alike.of_run (s := (.done () : Steps Unit)) (.refl w) hw s fun name => (List.cons.inj (h.stores name)).1
  savepoints name := (List.cons.inj (h.stores name)).2

/-! ## Runs in twins -/

theorem perform_twin (h : Twin w w') (hw : w.Still) (name : String) (c : Call) :
    (w'.perform name c).1 = (w.perform name c).1 ∧ Twin (w.perform name c).2 (w'.perform name c).2 := by
  by_cases hknown : name ∈ w.databases.map Prod.fst
  · have hknown' : name ∈ w'.databases.map Prod.fst := h.names ▸ hknown
    obtain ⟨hanswer, hleft⟩ : ((w'.database name).perform w.registry w.clock c).1 =
          ((w.database name).perform w.registry w.clock c).1 ∧
        ((w'.database name).perform w.registry w.clock c).2.stores =
          ((w.database name).perform w.registry w.clock c).2.stores := Database.perform_twin (h.stores name) c
    have hstores : ∀ other, ((w'.perform name c).2.database other).stores =
        ((w.perform name c).2.database other).stores := by
      intro other
      by_cases hn : other = name
      · subst hn
        rw [database_perform_self hknown, database_perform_self hknown', h.registry, h.clock]
        exact hleft
      · rw [database_perform_ne hn, database_perform_ne hn]
        exact h.stores other
    refine ⟨?_, ⟨?_, fun other => (List.cons.inj (hstores other)).2⟩⟩
    · rw [perform_known hknown, perform_known hknown', h.registry, h.clock]
      exact hanswer
    · exact h.toAlike.of_run hw (.ask name c .done) (.ask name c .done)
        fun other => (List.cons.inj (hstores other)).1
  · rw [perform_unknown hknown, perform_unknown (h.names ▸ hknown)]
    exact ⟨rfl, h⟩

/-- A computation does the same in twins, and leaves twins. -/
theorem run_twin (s : Steps α) (h : Twin w w') (hw : w.Still) :
    (run s w').1 = (run s w).1 ∧ Twin (run s w).2 (run s w').2 := by
  induction s generalizing w w' with
  | done a => exact ⟨rfl, h⟩
  | ask name c next ih =>
      obtain ⟨hanswer, htwin⟩ := perform_twin h hw name c
      rw [run_ask, run_ask, hanswer]
      exact ih _ htwin (still_perform hw name c)
  | clock next ih =>
      rw [run_clock hw, run_clock (h.still hw), h.clock]
      exact ih w.clock h hw

theorem runJob_twin (j : Job α) (h : Twin w w') (hw : w.Still) :
    (w'.runJob j).1 = (w.runJob j).1 ∧ Twin (w.runJob j).2 (w'.runJob j).2 :=
  run_twin j.run h hw

end World

/-! ## Jobs that close what they open -/

/-- What a database sees between the begin and the end of a transaction is confined to it. -/
theorem kept_confined (database : String) : Job.Kept (World.Confined database) database where
  composes := World.confined_composes database
  clock := Job.clock_confined
  atomic := Job.atomic_confined

namespace Job

open World

variable {α : Type} {database : String} {w w' : World}

theorem Made.confined {j : Job α} (h : Made database Call.IsStatement j) : Keeps (Confined database) j :=
  h.keeps (kept_confined database) fun _ => ask_confined

/-- Beginning and committing a transaction leave the store. -/
theorem store_perform_boundary {c : Call} (hc : c = .begin ∨ c = .commit) (w : World) (name : String) :
    ((w.perform database c).2.database name).store = (w.database name).store := by
  by_cases hn : name = database
  · subst hn
    by_cases hknown : name ∈ w.databases.map Prod.fst
    · rw [database_perform_self hknown]
      rcases hc with rfl | rfl
      · rfl
      · rw [Database.perform, Database.commit]
        split <;> rfl
    · rw [perform_unknown hknown]
  · rw [database_perform_ne hn]

/-- A transaction around a job that succeeds is closed with its changes. -/
theorem runJob_atomic_ok {j : Job α} (hj : Keeps (Confined database) j)
    (hknown : database ∈ w.databases.map Prod.fst) {a : α}
    (h : ((w.perform database .begin).2.runJob j).1 = .ok a) :
    w.runJob (atomic database j) =
      (.ok a, (((w.perform database .begin).2.runJob j).2.perform database .commit).2) := by
  have hopen := begun_of_confined (begun_perform hknown) (hj (w.perform database .begin).2)
  rw [runJob_atomic_known hknown]
  rcases hr : (w.perform database .begin).2.runJob j with ⟨r, w'⟩
  rw [hr] at h hopen
  obtain rfl : r = .ok a := h
  refine (runJob_bind (ask database .commit) _ w').trans ?_
  rw [runJob_ask, (perform_commit hopen hknown).1]
  rfl

/-- A transaction around a job that fails is closed without its changes. -/
theorem runJob_atomic_error {j : Job α} (hknown : database ∈ w.databases.map Prod.fst) {f : Failure}
    (h : ((w.perform database .begin).2.runJob j).1 = .error f) :
    w.runJob (atomic database j) =
      (.error f, (((w.perform database .begin).2.runJob j).2.perform database .rollback).2) := by
  rw [runJob_atomic_known hknown]
  rcases hr : (w.perform database .begin).2.runJob j with ⟨r, w'⟩
  rw [hr] at h
  obtain rfl : r = .error f := h
  rfl

/-- A job that does the same in worlds that are alike, and leaves worlds that are alike. -/
def Blind (j : Job α) : Prop :=
  ∀ {w w' : World}, Alike w w' → w.Still →
    (w'.runJob j).1 = (w.runJob j).1 ∧ Alike (w.runJob j).2 (w'.runJob j).2

theorem ask_blind {c : Call} (hc : c.IsStatement) : Blind (ask database c) := by
  intro w w' h hw
  rw [runJob_ask, runJob_ask]
  by_cases hknown : database ∈ w.databases.map Prod.fst
  · have hknown' : database ∈ w'.databases.map Prod.fst := h.names ▸ hknown
    obtain ⟨hanswer, hleft⟩ : ((w'.database database).perform w.registry w.clock c).1 =
          ((w.database database).perform w.registry w.clock c).1 ∧
        ((w'.database database).perform w.registry w.clock c).2.store =
          ((w.database database).perform w.registry w.clock c).2.store := Database.perform_congr (h.store database) hc
    refine ⟨?_, h.of_run hw (.ask database c .done) (.ask database c .done) fun other => ?_⟩
    · rw [perform_known hknown, perform_known hknown', h.registry, h.clock]
      exact hanswer
    · rw [run_ask, run_ask, run, run]
      by_cases hn : other = database
      · subst hn
        rw [database_perform_self hknown, database_perform_self hknown', h.registry, h.clock]
        exact hleft
      · rw [database_perform_ne hn, database_perform_ne hn]
        exact h.store other
  · rw [perform_unknown hknown, perform_unknown (h.names ▸ hknown)]
    exact ⟨rfl, h⟩

/-- A world is alike before and after the end of a transaction that keeps its changes. -/
theorem alike_commit (hw : w.Still) (database : String) : Alike w (w.perform database .commit).2 :=
  Alike.of_run (.refl w) hw (.done () : Steps Unit) (.ask database .commit .done) fun name =>
    store_perform_boundary (.inr rfl) w name

/-- Opening a transaction leaves worlds that are alike alike. -/
theorem alike_begin (h : Alike w w') (hw : w.Still) :
    Alike (w.perform database .begin).2 (w'.perform database .begin).2 :=
  h.of_run hw (.ask database .begin .done) (.ask database .begin .done) fun name => by
    rw [run_ask, run_ask, run, run, store_perform_boundary (.inl rfl), store_perform_boundary (.inl rfl),
      h.store name]

/-- Transactions whose jobs do the same do the same, whatever stands behind their savepoints. -/
theorem atomic_alike {j j' : Job α} (hj : Keeps (Confined database) j) (hj' : Keeps (Confined database) j')
    (h : Alike w w') (hw : w.Still)
    (hresult : ((w'.perform database .begin).2.runJob j').1 = ((w.perform database .begin).2.runJob j).1)
    (halike : Alike ((w.perform database .begin).2.runJob j).2 ((w'.perform database .begin).2.runJob j').2) :
    (w'.runJob (atomic database j')).1 = (w.runJob (atomic database j)).1 ∧
      Alike (w.runJob (atomic database j)).2 (w'.runJob (atomic database j')).2 := by
  by_cases hknown : database ∈ w.databases.map Prod.fst
  · have hknown' : database ∈ w'.databases.map Prod.fst := h.names ▸ hknown
    suffices hboth : (w'.runJob (atomic database j')).1 = (w.runJob (atomic database j)).1 ∧
        ∀ name, ((w'.runJob (atomic database j')).2.database name).store =
          ((w.runJob (atomic database j)).2.database name).store from
      ⟨hboth.1, h.of_run hw _ _ hboth.2⟩
    cases hr : ((w.perform database .begin).2.runJob j).1 with
    | ok a =>
        rw [runJob_atomic_ok hj hknown hr, runJob_atomic_ok hj' hknown' (hresult.trans hr)]
        simp only [store_perform_boundary (.inr rfl)]
        exact ⟨trivial, halike.store⟩
    | error f =>
        have hsame := (atomic_error hj (congrArg Prod.fst (runJob_atomic_error hknown hr))).stores
        have hsame' :=
          (atomic_error hj' (congrArg Prod.fst (runJob_atomic_error hknown' (hresult.trans hr)))).stores
        refine ⟨?_, fun name => ?_⟩
        · rw [runJob_atomic_error hknown hr, runJob_atomic_error hknown' (hresult.trans hr)]
        · rw [(List.cons.inj (hsame name)).1, (List.cons.inj (hsame' name)).1]
          exact h.store name
  · rw [runJob_atomic_unknown hknown, runJob_atomic_unknown (h.names ▸ hknown)]
    exact ⟨rfl, h⟩

/-- A job made of statements and transactions does the same in worlds that are alike. -/
theorem Made.blind {j : Job α} (h : Made database Call.IsStatement j) : Blind j := by
  induction h with
  | ofOutcome r => exact fun h _ => ⟨rfl, h⟩
  | clock =>
      intro w w' h hw
      refine ⟨congrArg Except.ok h.clock, h.of_run hw (.clock .done) (.clock .done) h.store⟩
  | ask allowed => exact ask_blind allowed
  | attempt _ ih =>
      intro w w' h hw
      rw [runJob_attempt, runJob_attempt]
      exact ⟨congrArg Except.ok (ih h hw).1, (ih h hw).2⟩
  | atomic inner ih =>
      intro w w' h hw
      obtain ⟨hresult, halike⟩ := ih (alike_begin h hw) (still_perform hw _ _)
      exact atomic_alike inner.confined inner.confined h hw hresult halike
  | bindOf _ returns _ ih ihrest =>
      intro w w' h hw
      obtain ⟨hresult, halike⟩ := ih h hw
      rw [runJob_bind, runJob_bind, hresult]
      split
      · rename_i a ha
        exact ihrest a (returns w a ha) halike (still_run hw _)
      · exact ⟨rfl, halike⟩

end Job

end RecordMapper

/-!
## Meeting — what holds of values and of failures alike

`Job.Meets Q P j` says that in every world of some models a job comes to
a value of which `Q` holds or a failure of which `P` holds. As for
outcomes, it is closed under the ways of putting computations together.
-/

namespace RecordMapper

variable {α β γ : Type} {P : Failure → Prop} {Q : α → Prop} {R : β → Prop}

namespace Job

open World

/-- In every world of some models a job comes to a value of which `Q` holds or to a failure of which `P` holds. -/
def Meets (reg : Registry) (Q : α → Prop) (P : Failure → Prop) (j : Job α) : Prop :=
  ∀ w : World, w.registry = reg → Outcome.Meets Q P (w.runJob j).1

namespace Meets

variable {reg : Registry}

theorem ofOutcome {r : Outcome α} (h : Outcome.Meets Q P r) : Meets reg Q P (Job.ofOutcome r) := fun _ _ => h

theorem pure {a : α} (h : Q a) : Meets reg Q P (Pure.pure a : Job α) := fun _ _ => h

theorem throw {f : Failure} (h : P f) : Meets reg Q P (MonadExcept.throw f : Job α) := fun _ _ => h

theorem bind {j : Job α} {k : α → Job β} (h : Meets reg Q P j) (hk : ∀ a, Q a → Meets reg R P (k a)) :
    Meets reg R P (j >>= k) := by
  intro w hreg
  have hmeets := h w hreg
  cases hr : (w.runJob j).1 with
  | ok a =>
      rw [hr] at hmeets
      rw [runJob_bind_ok hr]
      exact hk a hmeets _ ((registry_run _ w).trans hreg)
  | error f =>
      rw [hr] at hmeets
      rw [runJob_bind_error hr]
      exact hmeets

theorem attempt {j : Job α} (h : Meets reg Q P j) : Meets reg (Outcome.Meets Q P) P (Job.attempt j) := by
  intro w hreg
  rw [runJob_attempt]
  exact h w hreg

theorem mapM {g : γ → Job α} {l : List γ} (h : ∀ x ∈ l, Meets reg Q P (g x)) :
    Meets reg (fun as => ∀ a ∈ as, Q a) P (l.mapM g) := by
  induction l with
  | nil => exact pure (List.forall_mem_nil Q)
  | cons x rest ih =>
      rw [List.mapM_cons]
      refine (h x List.mem_cons_self).bind fun a ha => ?_
      refine (ih fun y hy => h y (List.mem_cons_of_mem x hy)).bind fun as has => ?_
      exact pure (List.forall_mem_cons.mpr ⟨ha, has⟩)

/-- A query fails as the store does, or since there is no such database. -/
theorem fetch {Q : List Record → Prop} {database : String} {qs : Queryset} {columns : List SelectColumn}
    (hknown : P (.unknownDatabase database)) (h : ∀ st, Outcome.Meets Q P (Store.fetch reg st qs columns))
    (hnone : qs.isNone = false) : Meets reg Q P (Job.fetch database qs columns) := by
  rintro w rfl
  show Outcome.Meets Q P (w.perform database (.fetch qs columns)).1
  by_cases hdb : database ∈ w.databases.map Prod.fst
  · rw [perform_known hdb, Database.perform]
    simp only [hnone, Bool.false_eq_true]
    exact h _
  · rw [perform_unknown hdb]
    exact hknown

end Meets

end Job

end RecordMapper
