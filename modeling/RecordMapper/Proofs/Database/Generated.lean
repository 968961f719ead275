import RecordMapper.Proofs.Database.Constraints
import RecordMapper.Proofs.Database.Nesting

/-!
# Generated keys — the counter of a table against all keys it ever stored

The history of a database is the list of the stores it went through since
it was empty, without those that were rolled back; an open transaction
returns to the history it began with. Along a history the counter of a
root's table stands at the largest integer key the table ever stored, or
at zero (`Tallies`), so the next key is larger than all of them, stored or
deleted.

That needs a next key. The counter is a machine word that is not checked:
behind the largest key comes the smallest one. Keys are fresh exactly as
long as the largest key was never stored on the history
(`generated_along_runs`).
-/

namespace RecordMapper

/-! ## Histories -/

/-- The histories of the present and of the savepoints after a call. -/
def Call.record (after : Store) : Call → List (List Store) → List (List Store)
  | .begin, present :: outer => present :: present :: outer
  | .commit, present :: _ :: outer => present :: outer
  | .rollback, _ :: before :: outer => before :: outer
  | .begin, [] => []
  | .commit, past => past
  | .rollback, past => past
  | _, present :: outer => (after :: present) :: outer
  | _, [] => []

theorem Call.record_statement {c : Call} (hc : c.IsStatement) (after : Store) (present : List Store)
    (outer : List (List Store)) : c.record after (present :: outer) = (after :: present) :: outer := by
  cases c <;> first | rfl | exact hc.elim

namespace Database

/-- The histories of the present and of the savepoints after some calls. -/
def histories (reg : Registry) (db : Database) (past : List (List Store)) :
    List (Instant × Call) → List (List Store)
  | [] => past
  | (now, c) :: rest =>
    let after := (db.perform reg now c).2
    histories reg after (c.record after.store past) rest

/-- The stores of a run that were not rolled back, the present one first. -/
def history (reg : Registry) (calls : List (Instant × Call)) : List Store :=
  (histories reg empty [[Store.empty]] calls).headD []

/-- The table of a model held an integer key at some time of a history. -/
def Stored (past : List Store) (m : Model) (n : Int64) : Prop := ∃ before ∈ past, .int n ∈ before.keys m

instance (past : List Store) (m : Model) (n : Int64) : Decidable (Stored past m n) :=
  inferInstanceAs (Decidable (∃ before ∈ past, .int n ∈ before.keys m))

variable {reg : Registry} {now : Instant} {db : Database} {c : Call} {m : Model} {st st' : Store} {past : List Store}

/-! ## One write -/

/-- A store ends a history along which the counter of a table kept up with its keys. -/
structure Tallies (m : Model) (past : List Store) (st : Store) : Prop where
  present : st ∈ past
  above : ∀ n, Stored past m n → n.toInt ≤ (st.table m).lastId.toInt
  drawn : (st.table m).lastId = 0 ∨ Stored past m (st.table m).lastId

theorem Tallies.empty (m : Model) : Tallies m [Store.empty] Store.empty where
  present := List.mem_singleton.mpr rfl
  above := by
    rintro n ⟨before, hbefore, hn⟩
    obtain rfl := List.mem_singleton.mp hbefore
    cases hn
  drawn := .inl rfl

/-- A write takes the counter of a root's table up with the keys that it stores, and to such a key only. -/
structure Counts (m : Model) (st st' : Store) : Prop where
  grows : (st.table m).lastId.toInt ≤ (st'.table m).lastId.toInt
  keys : ∀ n, .int n ∈ st'.keys m → .int n ∈ st.keys m ∨ n.toInt ≤ (st'.table m).lastId.toInt
  moves : (st'.table m).lastId = (st.table m).lastId ∨ .int (st'.table m).lastId ∈ st'.keys m

/-- A write that leaves the counter and stores no key counts. -/
theorem Counts.of_keys (hkeys : st'.keys m ⊆ st.keys m) (hlast : (st'.table m).lastId = (st.table m).lastId) :
    Counts m st st' where
  grows := Int.le_of_eq (congrArg Int64.toInt hlast.symm)
  keys _ hn := .inl (hkeys hn)
  moves := .inl hlast

theorem insert_counts {m' : Model} {values : Record} {pk : Value} (hr : reg.Rooted) (hm : m ∈ reg.models)
    (hp : m.parent = none) (hm' : m' ∈ reg.models) (h : Store.insert reg now st m' values = .ok (pk, st')) :
    Counts m st st' := by
  rcases Store.insert_rows hr hm' h hm with ⟨hl, row, hrows⟩ | ⟨_, htable⟩
  · -- The table of a root in the lineage is the one that notes the key.
    obtain rfl := hr.rootOf_of_parent hm' hl hp
    obtain ⟨_, _, _, _, _, rfl, _⟩ := Store.insert_eq_ok h
    have hnd : ((reg.lineage m').reverse.map Model.name).Nodup := by
      rw [List.map_reverse, List.nodup_reverse]
      exact hr.nodup_lineage hm'
    have hlast := congrArg Table.lastId (Store.table_setRows_mem (fun level => Store.localRow reg now level pk values)
      pk (Store.noteKey st (reg.rootOf m') pk) hnd (List.mem_reverse.mpr hl))
    obtain ⟨hup, hnoted⟩ := Store.noteKey_lastId st (reg.rootOf m') pk
    have hkeys := Store.keys_congr hrows
    constructor
    case grows => rwa [hlast]
    case keys =>
      intro n hn
      rw [hkeys] at hn
      rcases Store.mem_keys_setRow.mp hn with hnew | hold
      · rw [hlast]
        exact .inr (hnoted n hnew.symm)
      · exact .inl hold
    case moves =>
      rw [hlast, hkeys]
      rcases Store.noteKey_lastId_cases st (reg.rootOf m') pk with hsame | hkey
      · exact .inl hsame
      · exact .inr (Store.mem_keys_setRow.mpr (.inl hkey.symm))
  · refine .of_keys ?_ (by rw [htable])
    rw [Store.keys, htable]
    exact List.Subset.refl _

theorem leaves_counts (hr : reg.Rooted) (hm : m ∈ reg.models) (hp : m.parent = none) (hw : c.Within reg)
    (h : c.Leaves reg now st st') : Counts m st st' := by
  cases h with
  | insert h => exact insert_counts hr hm hp hw h
  | @insertChild m' values st' h =>
      obtain ⟨pk, parent, _, hparent, _, _, rfl, _⟩ := Store.insertChild_eq_ok h
      -- A root has no parent, so it is not the model inserted into.
      have hne : m ≠ m' := by
        rintro rfl
        rw [Registry.parent?_eq_none_of_parent hp] at hparent
        cases hparent
      have htable := Store.table_setRow_of_ne hr hw hm hne st pk (Store.localRow reg now m' pk values)
      refine .of_keys ?_ (by rw [htable])
      rw [Store.keys, htable]
      exact List.Subset.refl _
  | @update qs values n st' h =>
      obtain ⟨pks, _, rfl, _⟩ := Store.update_eq_ok h
      have hover := Store.update_overwrites hr hw st pks values
      exact .of_keys (hover.keys m hm ▸ List.Subset.refl _) (hover.lastId m hm)
  | delete h =>
      have hshrinks := Store.delete_shrinks h
      exact .of_keys (hshrinks.keys m).subset (hshrinks.lastId m)

/-- A history goes on with the store that a write leaves. -/
theorem Tallies.write (ht : Tallies m past st) (h : Counts m st st') : Tallies m (st' :: past) st' where
  present := List.mem_cons_self
  above := by
    rintro n ⟨before, hbefore, hn⟩
    have hold : ∀ n, Stored past m n → n.toInt ≤ (st'.table m).lastId.toInt := fun n hn =>
      Int.le_trans (ht.above n hn) h.grows
    rcases List.mem_cons.mp hbefore with rfl | hpast
    · rcases h.keys n hn with hkept | hle
      · exact hold n ⟨st, ht.present, hkept⟩
      · exact hle
    · exact hold n ⟨before, hpast, hn⟩
  drawn := by
    rcases h.moves with hsame | hmoved
    · rw [hsame]
      refine ht.drawn.imp_right ?_
      rintro ⟨before, hbefore, hn⟩
      exact ⟨before, List.mem_cons_of_mem _ hbefore, hn⟩
    · exact .inr ⟨st', List.mem_cons_self, hmoved⟩

/-! ## Whole runs -/

/-- Each store of a database ends its history. -/
theorem tallies_perform (hr : reg.Rooted) (hm : m ∈ reg.models) (hp : m.parent = none) (hw : c.Within reg)
    {pasts : List (List Store)} (h : List.Forall₂ (Tallies m) pasts db.stores) :
    List.Forall₂ (Tallies m) (c.record (db.perform reg now c).2.store pasts) (db.perform reg now c).2.stores := by
  obtain ⟨store, savepoints, log⟩ := db
  cases h with
  | @cons present _ outer _ hpresent houter =>
    have hstatement : c.IsStatement → List.Forall₂ (Tallies m)
        (c.record ((⟨store, savepoints, log⟩ : Database).perform reg now c).2.store (present :: outer))
        ((⟨store, savepoints, log⟩ : Database).perform reg now c).2.stores := by
      intro hc
      rw [Call.record_statement hc, stores, savepoints_perform hc]
      refine .cons ?_ houter
      rcases store_perform reg now ⟨store, savepoints, log⟩ hc with hsame | hleaves
      · rw [hsame]
        exact hpresent.write (.of_keys (List.Subset.refl _) rfl)
      · exact hpresent.write (leaves_counts hr hm hp hw hleaves)
    cases c with
    | begin => exact .cons hpresent (.cons hpresent houter)
    | commit =>
        cases houter with
        | nil => exact .cons hpresent .nil
        | cons _ hrest => exact .cons hpresent hrest
    | rollback =>
        cases houter with
        | nil => exact .cons hpresent .nil
        | cons hbefore hrest => exact .cons hbefore hrest
    | _ => exact hstatement trivial

theorem tallies_play (hr : reg.Rooted) (hm : m ∈ reg.models) (hp : m.parent = none)
    {calls : List (Instant × Call)} (hw : ∀ c ∈ calls, c.2.Within reg) {pasts : List (List Store)}
    (h : List.Forall₂ (Tallies m) pasts db.stores) :
    List.Forall₂ (Tallies m) (histories reg db pasts calls) (db.play reg calls).stores := by
  induction calls generalizing db pasts with
  | nil => exact h
  | cons c rest ih =>
      obtain ⟨now, c⟩ := c
      exact ih (fun d hd => hw d (List.mem_cons_of_mem _ hd))
        (tallies_perform hr hm hp (hw _ List.mem_cons_self) h)

/-- Along every run the counter of a root's table keeps up with the keys of the history. -/
theorem tallies_history (hr : reg.Rooted) (hm : m ∈ reg.models) (hp : m.parent = none)
    {calls : List (Instant × Call)} (hw : ∀ c ∈ calls, c.2.Within reg) :
    Tallies m (history reg calls) (empty.play reg calls).store := by
  have hall := tallies_play hr hm hp hw (.cons (.empty m) .nil : List.Forall₂ (Tallies m) [[Store.empty]] empty.stores)
  rw [history]
  generalize histories reg empty [[Store.empty]] calls = pasts at hall
  cases hall with
  | cons hpresent _ => exact hpresent

/-! ## The next key -/

/-- The next word is larger by one, but for the largest. -/
theorem toInt_succ_iff (n : Int64) : (n + 1).toInt = n.toInt + 1 ↔ n ≠ Int64.maxValue := by
  have hmax : Int64.maxValue.toInt = 2 ^ 63 - 1 := by decide
  have hone : (1 : Int64).toInt = 1 := by decide
  have hlow := n.le_toInt
  have hhigh := n.toInt_lt
  rw [ne_eq, ← Int64.toInt_inj, hmax, Int64.toInt_add, hone, Int.bmod_def]
  omega

/-- The counter stands at the largest key just if that was stored. -/
theorem Tallies.lastId_eq_max_iff (ht : Tallies m past st) :
    (st.table m).lastId = Int64.maxValue ↔ Stored past m Int64.maxValue := by
  constructor
  · intro hmax
    have hdrawn := ht.drawn
    rw [hmax] at hdrawn
    exact hdrawn.resolve_left (by decide)
  · intro hstored
    exact Int64.toInt_inj.mp (Int.le_antisymm (Int64.toInt_le _) (ht.above _ hstored))

/-- A key that is the next of the counter is larger than all keys of the history just if the counter can go on. -/
theorem Tallies.next_above_iff (ht : Tallies m past st) :
    (∀ n, Stored past m n → n.toInt < ((st.table m).lastId + 1).toInt) ↔ ¬ Stored past m Int64.maxValue := by
  constructor
  · intro habove hstored
    have hlt := habove _ hstored
    have hle := Int64.toInt_le ((st.table m).lastId + 1)
    omega
  · intro hnever n hn
    rw [(toInt_succ_iff _).mpr (fun hmax => hnever (ht.lastId_eq_max_iff.mp hmax))]
    have hle := ht.above n hn
    omega

/-- Generated keys in every store of every run. An insert that gives no key draws the counter's successor; that does not
overflow, and the key of an insert that succeeds is larger than every integer key that the root's table stored on the
history, exactly if the largest key was never stored there. -/
theorem generated_along_runs {decls : List ModelDecl} (hb : Registry.build decls = .ok reg)
    {calls : List (Instant × Call)} (hw : ∀ c ∈ calls, c.2.Within reg) (hm : m ∈ reg.models) {f : Field}
    (hf : reg.field m m.pkName = .ok f) (hauto : f.type.isAuto) {values : Record}
    (hgiven : Store.givenKey? m values = none) (now : Instant) :
    (∃ n, Store.newKey reg now (empty.play reg calls).store m f values = .int n ∧
      (n.toInt = ((empty.play reg calls).store.table (reg.rootOf m)).lastId.toInt + 1 ↔
        ¬ Stored (history reg calls) (reg.rootOf m) Int64.maxValue)) ∧
    ∀ k st', Store.insert reg now (empty.play reg calls).store m values = .ok (k, st') →
      ((∃ n, k = .int n ∧ ∀ n', Stored (history reg calls) (reg.rootOf m) n' → n'.toInt < n.toInt) ↔
        ¬ Stored (history reg calls) (reg.rootOf m) Int64.maxValue) := by
  have hr := Registry.rooted_of_build hb
  have ht := tallies_history hr (hr.rootOf_mem_models hm) (hr.rootOf_parent hm) hw
  generalize (empty.play reg calls).store = st at ht ⊢
  have hkey : Store.newKey reg now st m f values = .int ((st.table (reg.rootOf m)).lastId + 1) := by
    rw [Store.newKey, hgiven]
    exact if_pos hauto
  refine ⟨⟨_, hkey, ?_⟩, fun k st' h => ?_⟩
  · rw [toInt_succ_iff, ne_eq, ht.lastId_eq_max_iff]
  · obtain ⟨f', hf', rfl, _⟩ := Store.insert_eq_ok h
    obtain rfl : f = f' := Except.ok.inj (hf.symm.trans hf')
    rw [hkey, ← ht.next_above_iff]
    simp

/-- The declaration of tickets. -/
def ticketDecls : List ModelDecl := [{ name := "ticket", fields := ticket.own }]

def tickets : Registry := ⟨[ticket]⟩

theorem build_tickets : Registry.build ticketDecls = .ok tickets := rfl

theorem ticket_mem : ticket ∈ tickets.models := List.mem_cons_self

/-- A ticket under a key of its own and another one, which are deleted; what is rolled back had a larger key. -/
def usedTickets : List (Instant × Call) :=
  [.insert ticket [("id", .int 7)], .insert ticket [], .begin, .insert ticket [("id", .int 90)], .rollback,
    .delete (.all ticket)].map fun c => (⟨0, 0⟩, c)

theorem usedTickets_within : ∀ c ∈ usedTickets, c.2.Within tickets := by
  intro c hc
  simp only [usedTickets, List.map_cons, List.map_nil, List.mem_cons, List.not_mem_nil, or_false] at hc
  rcases hc with rfl | rfl | rfl | rfl | rfl | rfl <;> simp [Call.Within, Queryset.all, ticket_mem]

/-- The next ticket goes on behind the ones that were deleted. -/
theorem generated_along_usedTickets :
    (∀ c ∈ usedTickets, c.2.Within tickets) ∧
      (∀ n, Stored (history tickets usedTickets) ticket n → n.toInt < (9 : Int64).toInt) ∧
      ∃ st', Store.insert tickets ⟨0, 0⟩ (empty.play tickets usedTickets).store ticket [] = .ok (.int 9, st') := by
  have hinsert : ∃ st', Store.insert tickets ⟨0, 0⟩ (empty.play tickets usedTickets).store ticket [] =
      .ok (.int 9, st') := ⟨_, rfl⟩
  obtain ⟨st', hst'⟩ := hinsert
  have hnever : ¬ Stored (history tickets usedTickets) ticket Int64.maxValue := by decide
  have hfield : Registry.field tickets ticket ticket.pkName = .ok (.autoKey "id") := rfl
  have hgiven : Store.givenKey? ticket [] = none := rfl
  have hgenerated := generated_along_runs build_tickets usedTickets_within ticket_mem hfield rfl hgiven ⟨0, 0⟩
  obtain ⟨n, hn, habove⟩ := (hgenerated.2 _ st' hst').mpr hnever
  cases hn
  exact ⟨usedTickets_within, habove, st', hst'⟩

/-- A ticket under the largest key. -/
def lastTicket : List (Instant × Call) := [(⟨0, 0⟩, .insert ticket [("id", .int Int64.maxValue)])]

/-- The ticket after the last one gets the smallest key. -/
theorem lastTicket_wraps :
    Registry.build ticketDecls = .ok tickets ∧ (∀ c ∈ lastTicket, c.2.Within tickets) ∧
      Stored (history tickets lastTicket) ticket Int64.maxValue ∧
      ∃ st', Store.insert tickets ⟨0, 0⟩ (empty.play tickets lastTicket).store ticket [] =
        .ok (.int Int64.minValue, st') := by
  have hwithin : ∀ c ∈ lastTicket, c.2.Within tickets := by
    intro c hc
    rw [List.mem_singleton.mp hc]
    exact ticket_mem
  have hstored : Stored (history tickets lastTicket) ticket Int64.maxValue := by decide
  exact ⟨build_tickets, hwithin, hstored, _, rfl⟩

end Database

end RecordMapper
