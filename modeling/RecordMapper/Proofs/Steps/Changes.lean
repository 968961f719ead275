import RecordMapper.Proofs.Database.Runs
import RecordMapper.Proofs.Steps.Twins

/-!
# Changes — what jobs do to the store of a database

`Changes database reg S` says that two worlds differ in one database
alone, and that `S` relates its store before and after. A job is so if
its calls are: a statement leaves the store as it was or makes a write
that succeeds, and a transaction keeps what is done in it or undoes it
all. What is true of a store and stays so through every write of a job
stays so through the job (`Preserves`).
-/

namespace RecordMapper

/-! ## Calls -/

namespace Call

/-- A statement whose write, if there is one that succeeds, changes a store as `S` says. -/
structure Changing (reg : Registry) (S : Store → Store → Prop) (c : Call) : Prop where
  statement : c.IsStatement
  leaves : ∀ now st st', c.Leaves reg now st st' → S st st'

/-- A statement that leaves true of a store what is true of it. -/
abbrev Preserving (reg : Registry) (Q : Store → Prop) (c : Call) : Prop :=
  c.Changing reg fun st st' => Q st → Q st'

variable {reg : Registry} {S : Store → Store → Prop}

theorem changing_fetch (qs : Queryset) (columns : List SelectColumn) :
    (Call.fetch qs columns).Changing reg S := ⟨trivial, by rintro _ _ _ ⟨⟩⟩

theorem changing_count (qs : Queryset) : (Call.count qs).Changing reg S := ⟨trivial, by rintro _ _ _ ⟨⟩⟩

variable {m : Model} {values : Record} {qs : Queryset}

theorem changing_insert
    (h : ∀ {now st pk st'}, Store.insert reg now st m values = .ok (pk, st') → S st st') :
    (Call.insert m values).Changing reg S :=
  ⟨trivial, fun _ _ _ hleaves => by cases hleaves with | insert hinsert => exact h hinsert⟩

theorem changing_insertChild
    (h : ∀ {now st st'}, Store.insertChild reg now st m values = .ok st' → S st st') :
    (Call.insertChild m values).Changing reg S :=
  ⟨trivial, fun _ _ _ hleaves => by cases hleaves with | insertChild hinsert => exact h hinsert⟩

theorem changing_update (h : ∀ {st n st'}, Store.update reg st qs values = .ok (n, st') → S st st') :
    (Call.update qs values).Changing reg S :=
  ⟨trivial, fun _ _ _ hleaves => by cases hleaves with | update hupdate => exact h hupdate⟩

theorem changing_delete (h : ∀ {st n st'}, Store.delete reg st qs = .ok (n, st') → S st st') :
    (Call.delete qs).Changing reg S :=
  ⟨trivial, fun _ _ _ hleaves => by cases hleaves with | delete hdelete => exact h hdelete⟩

end Call

/-! ## Worlds -/

namespace World

/-- A confined change that changes the store of a database of some models as `S` says. -/
structure Changes (database : String) (reg : Registry) (S : Store → Store → Prop) (w w' : World) : Prop
    extends Confined database w w' where
  registry : w'.registry = w.registry
  store : w.registry = reg → S (w.database database).store (w'.database database).store

/-- A confined change after which the store of a database of some models has a property that it had. -/
abbrev Preserves (database : String) (reg : Registry) (Q : Store → Prop) : World → World → Prop :=
  Changes database reg fun st st' => Q st → Q st'

variable {database : String} {reg : Registry} {S S₁ S₂ : Store → Store → Prop} {w w' w'' : World}

namespace Changes

theorem refl (hrefl : ∀ st, S st st) (w : World) : Changes database reg S w w :=
  { (confined_composes database).refl w with registry := rfl, store := fun _ => hrefl _ }

theorem imp (h : Changes database reg S w w') (himp : ∀ {st st'}, S st st' → S₁ st st') :
    Changes database reg S₁ w w' :=
  { h with store := fun hreg => himp (h.store hreg) }

theorem comp (h : Changes database reg S₁ w w') (h' : Changes database reg S₂ w' w'')
    (hcomp : ∀ {st st' st''}, S₁ st st' → S₂ st' st'' → S st st'') : Changes database reg S w w'' := {
  (confined_composes database).trans h.toConfined h'.toConfined with
  registry := h'.registry.trans h.registry
  store := fun hreg => hcomp (h.store hreg) (h'.store (h.registry.trans hreg)) }

/-- Other databases do not change at all, so every store changes as that of the database. -/
theorem everywhere (hrefl : ∀ st, S st st) (h : Changes database reg S w w') (hreg : w.registry = reg)
    (name : String) : S (w.database name).store (w'.database name).store := by
  by_cases hname : name = database
  · subst hname
    exact h.store hreg
  · rw [h.others name hname]
    exact hrefl _

end Changes

end World

namespace Job

open World

variable {database : String} {reg : Registry} {S S₁ S₂ : Store → Store → Prop} {α β : Type}

theorem composes_changes (hrefl : ∀ st, S st st) (htrans : ∀ {st st' st''}, S st st' → S st' st'' → S st st'') :
    Composes (Changes database reg S) where
  refl := .refl hrefl
  trans h h' := h.comp h' htrans

/-- Jobs that change a store one after the other change it as both do; where the first one fails the store
changes as that one does. -/
theorem bind_changes {j : Job α} {k : α → Job β} (hj : Keeps (Changes database reg S₁) j)
    (hk : ∀ a, Keeps (Changes database reg S₂) (k a)) (hstop : ∀ {st st'}, S₁ st st' → S st st')
    (hcomp : ∀ {st st' st''}, S₁ st st' → S₂ st' st'' → S st st'') : Keeps (Changes database reg S) (j >>= k) := by
  intro w
  rw [runJob_bind]
  split
  · rename_i a _
    exact (hj w).comp (hk a _) hcomp
  · exact (hj w).imp hstop

/-- A statement changes a store as its write does. -/
theorem ask_changes (hrefl : ∀ st, S st st) {c : Call} (hc : c.Changing reg S) :
    Keeps (Changes database reg S) (ask database c) := by
  intro w
  refine { ask_confined hc.statement w with registry := registry_run _ w, store := fun hreg => ?_ }
  rw [runJob_ask]
  by_cases hknown : database ∈ w.databases.map Prod.fst
  · rw [database_perform_self hknown, hreg]
    rcases Database.store_perform reg w.clock (w.database database) hc.statement with hsame | hleaves
    · rw [hsame]
      exact hrefl _
    · exact hc.leaves _ _ _ hleaves
  · rw [perform_unknown hknown]
    exact hrefl _

/-- A transaction keeps what its job does to the store, or undoes it. -/
theorem atomic_changes (hrefl : ∀ st, S st st) {j : Job α} (hj : Keeps (Changes database reg S) j) :
    Keeps (Changes database reg S) (atomic database j) := by
  intro w
  have hconfined : Keeps (Confined database) j := fun w => (hj w).toConfined
  refine { atomic_confined hconfined w with registry := registry_run _ w, store := fun hreg => ?_ }
  by_cases hknown : database ∈ w.databases.map Prod.fst
  · cases hr : ((w.perform database .begin).2.runJob j).1 with
    | ok a =>
        have hchange := (hj (w.perform database .begin).2).store ((registry_perform ..).trans hreg)
        rw [runJob_atomic_ok hconfined hknown hr]
        simp only [store_perform_boundary (.inr rfl)]
        rwa [store_perform_boundary (.inl rfl)] at hchange
    | error f =>
        have hstores := (atomic_error hconfined (congrArg Prod.fst (runJob_atomic_error hknown hr))).stores database
        rw [(List.cons.inj hstores).1]
        exact hrefl _
  · rw [runJob_atomic_unknown hknown]
    exact hrefl _

theorem atomicIf_changes (hrefl : ∀ st, S st st) (wanted : Bool) {j : Job α}
    (hj : Keeps (Changes database reg S) j) : Keeps (Changes database reg S) (atomicIf wanted database j) := by
  cases wanted with
  | false => exact hj
  | true => exact atomic_changes hrefl hj

theorem kept_changes (hrefl : ∀ st, S st st) (htrans : ∀ {st st' st''}, S st st' → S st' st'' → S st st'') :
    Kept (Changes database reg S) database where
  composes := composes_changes hrefl htrans
  clock w := { clock_confined w with registry := rfl, store := fun _ => hrefl _ }
  atomic := atomic_changes hrefl

/-- A job changes a store as the statements do of which it is made. -/
theorem Made.changes (hrefl : ∀ st, S st st) (htrans : ∀ {st st' st''}, S st st' → S st' st'' → S st st'')
    {j : Job α} (h : Made database (Call.Changing reg S) j) : Keeps (Changes database reg S) j :=
  h.keeps (kept_changes hrefl htrans) fun _ => ask_changes hrefl

theorem Made.preserves {Q : Store → Prop} {j : Job α} (h : Made database (Call.Preserving reg Q) j) :
    Keeps (Preserves database reg Q) j :=
  h.changes (fun _ => id) fun h h' hQ => h' (h hQ)

end Job

end RecordMapper
