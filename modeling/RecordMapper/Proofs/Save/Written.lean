import RecordMapper.Proofs.Steps.Leading
import RecordMapper.Proofs.Store.Cells
import RecordMapper.Sample.Network
import RecordMapper.Save.Rows
import RecordMapper.Proofs.Save.Statements

/-!
# Written — the three ways in which a save writes its row

A save that succeeds has found the row of its key and overwritten it,
has put one below the row of the parent model, or has created one.
`Wrote` says what each of them has done to the store.
-/

/-!
## All or nothing — saves in a transaction

Everything a save does between the begin and the end of its transaction
is confined to the database it writes to, since its statements are and
the transactions around single records and relations. Hence a save in a
transaction leaves the stores as they were when it fails, and the
savepoints as they were in any case.
-/

namespace RecordMapper

open World

namespace Save

variable {app : Application} {t : WriteTarget}

/-- Apart from its transactions a save makes statements. -/
theorem allowed_isStatement (app : Application) (s : Schema) (data : Record) :
    Allowed Call.IsStatement app s data where
  looks := ⟨fun _ _ => trivial, fun _ => trivial⟩
  writes _ _ := ⟨fun _ => trivial, fun _ => trivial, fun _ _ _ => trivial⟩
  deletes _ _ := trivial

theorem each_confined {save : Record → Job Value} (o : SaveOptions) {items : List Record}
    (h : ∀ item, Job.Keeps (Confined t.database) (save item)) :
    Job.Keeps (Confined t.database) (each save t o items) := by
  have hR := kept_confined t.database
  have hC := hR.composes
  refine .mapM hC fun item _ => .ite ?_ (.bind hC (h item) fun _ => .pure hC _)
  refine .bind hC (.attempt (hR.atomicIf t.transactional (h item))) fun r => ?_
  cases r with
  | ok pk => exact .pure hC _
  | error f => exact .pure hC _

/-- Every level of nested objects is confined to the database that is written to. -/
theorem rowWithin_confined (levels : Nat) (s : Schema) (o : SaveOptions) (data extra : Record) :
    Job.Keeps (Confined t.database) (rowWithin app t levels s o data extra) :=
  (rowWithin_made levels (allowed_isStatement app s data) o extra).confined

theorem row_isStatement (app : Application) (t : WriteTarget) (s : Schema) (o : SaveOptions) (data : Record) :
    Job.Made t.database Call.IsStatement (row app t s o data) :=
  rowWithin_made _ (allowed_isStatement app s data) o []

theorem each_isStatement (app : Application) (t : WriteTarget) (s : Schema) (o : SaveOptions)
    (items : List Record) : Job.Made t.database Call.IsStatement (each (row app t s o) t o items) :=
  each_made o fun item _ => row_isStatement app t s o item

end Save

namespace Job

/-- A job that leaves every savepoint as it was, and after a failure every store too. -/
def AllOrNothing {α : Type} (j : Job α) : Prop :=
  ∀ w, SameSavepoints w (w.runJob j).2 ∧
    ∀ f, (w.runJob j).1 = .error f → SameStores w (w.runJob j).2

variable {α β : Type}

theorem allOrNothing_atomic {database : String} {j : Job α} (hj : Keeps (Confined database) j) :
    AllOrNothing (atomic database j) :=
  fun w => ⟨(atomic_confined hj w).toSameSavepoints, fun _ h => atomic_error hj h⟩

/-- What is known already changes nothing. -/
theorem AllOrNothing.after {r : Outcome β} {k : β → Job α} (hk : ∀ b, r = .ok b → AllOrNothing (k b)) :
    AllOrNothing (ofOutcome r >>= k) := by
  intro w
  rw [runJob_bind, runJob_ofOutcome]
  cases r with
  | ok b => exact hk b rfl w
  | error f => exact ⟨⟨rfl, fun _ => rfl⟩, fun _ _ => .refl w⟩

theorem AllOrNothing.mapped {j : Job α} (h : AllOrNothing j) (ctx : Context) :
    AllOrNothing (Save.mapped ctx j) := by
  intro w
  rw [Save.runJob_mapped]
  refine ⟨(h w).1, fun f hf => ?_⟩
  cases hr : (w.runJob j).1 with
  | ok a =>
      rw [hr] at hf
      cases hf
  | error e => exact (h w).2 e hr

end Job

theorem WriteTarget.transactional_of {connections : Connections} {ctx : Context} {o : SaveOptions}
    {t : WriteTarget} (ho : o.transaction ≠ .none) (h : WriteTarget.of connections ctx o = .ok t) :
    t.transactional = true := by
  unfold WriteTarget.of at h
  split at h
  · rename_i hnone
    exact absurd hnone ho
  all_goals
    obtain ⟨_, _, h⟩ := Outcome.bind_eq_ok.mp h
    cases h
    rfl

namespace Application

/-- What is written in the transaction of a save leaves every savepoint as it was, and every store if it fails. -/
theorem mapped_allOrNothing {α : Type} (app : Application) (ctx : Context) {o : SaveOptions} (ho : o.transaction ≠ .none)
    {write : WriteTarget → Job α} (hwrite : ∀ t, Job.Keeps (Confined t.database) (write t)) :
    Job.AllOrNothing (Save.mapped ctx do
      Job.ofOutcome o.check
      let t ← Job.ofOutcome (WriteTarget.of app.connections ctx o)
      Job.atomicIf t.transactional t.database (write t)) := by
  refine .mapped (.after fun _ _ => .after fun t ht => ?_) ctx
  rw [WriteTarget.transactional_of ho ht]
  exact Job.allOrNothing_atomic (hwrite t)

/-- A save of one record in a transaction leaves every savepoint as it was, and every store if it fails. -/
theorem save_allOrNothing (app : Application) (s : Schema) (data : Record) (ctx : Context) {o : SaveOptions}
    (ho : o.transaction ≠ .none) : (app.save s data ctx o).AllOrNothing :=
  mapped_allOrNothing app ctx ho fun _ => Save.rowWithin_confined _ s o data []

/-- A save in a transaction, of one record or of many, leaves every savepoint as it was, and every store
if it fails. -/
theorem save_all_or_nothing (app : Application) (s : Schema) (ctx : Context) (o : SaveOptions)
    (ho : o.transaction ≠ .none) :
    (∀ data, (app.save s data ctx o).AllOrNothing) ∧
      ∀ data, (app.saveAll s data ctx o).AllOrNothing := by
  refine ⟨fun data => save_allOrNothing app s data ctx ho, fun data => mapped_allOrNothing app ctx ho fun t => ?_⟩
  exact Save.each_confined o fun item => Save.rowWithin_confined _ s o item []

/-- A save changes the database it writes to alone. -/
theorem save_confined {app : Application} {ctx : Context} {o : SaveOptions} {t : WriteTarget}
    (ht : WriteTarget.of app.connections ctx o = .ok t) (s : Schema) (data : Record) :
    Job.Keeps (Confined t.database) (app.save s data ctx o) := by
  have hR := kept_confined t.database
  have hwrites : Job.Keeps (Confined t.database) (do
      Job.ofOutcome o.check
      let t ← Job.ofOutcome (WriteTarget.of app.connections ctx o)
      Job.atomicIf t.transactional t.database (Save.row app t s o data)) := by
    refine .bind hR.composes (.ofOutcome hR.composes _) fun _ => ?_
    rw [ht]
    exact hR.atomicIf t.transactional (Save.rowWithin_confined _ s o data [])
  intro w
  rw [save, Save.runJob_mapped]
  exact hwrites w

/-- The network's application with a schema for its users. -/
def network : Application := ⟨Network.registry, {}, ⟨["default"], "default"⟩⟩

def userSchema : Schema :=
  { id := 1, name := "users", model := (Network.registry.find? "user").getD default, fields := [],
    pkName := "id" }

theorem save_users_all_or_nothing :
    ({ skipFailed := true } : SaveOptions).transaction ≠ .none ∧
      (∀ data, (network.save userSchema data {} { skipFailed := true }).AllOrNothing) ∧
      ∀ data, (network.saveAll userSchema data {} { skipFailed := true }).AllOrNothing :=
  ⟨by decide, save_all_or_nothing network userSchema {} { skipFailed := true } (by decide)⟩

end Application

end RecordMapper

/-! ## The ways of writing a row -/

namespace RecordMapper

open Store

namespace Save

variable {app : Application} {t : WriteTarget} {reg : Registry} {times : Instant → Prop} {s : Schema}
  {o : SaveOptions} {data extra : Record} {st : Store}

/-- The row of a key that is to be overwritten. -/
def target (s : Schema) (pk : Value) : Queryset := (Queryset.all s.model).pkIn [pk]

/-- How the row of some data is written at certain times, and the store that is left. -/
inductive Wrote (reg : Registry) (times : Instant → Prop) (s : Schema) (data extra : Record) (st : Store) :
    WrittenRow → Store → Prop
  | found {pk : Value} {now : Instant} {pks : List Value} {st' : Store} (key : s.keyOf? data = some pk)
    (time : times now) (selected : select reg st (target s pk) = .ok pks) (some : pks ≠ [])
    (overwritten :
      st' = overwrite reg s.model ((SaveParts.split s .update data).updateColumns s now extra) pks st)
    (checked : (SaveParts.split s .update data).updateColumns s now extra ≠ [] →
      ∀ k ∈ pks, checkRow reg st' s.model k = .ok ()) :
    Wrote reg times s data extra st ⟨pk, false, SaveParts.split s .update data⟩ st'
  | extended {pk : Value} {now at' : Instant} {columns : Record} {below st' : Store}
    (key : s.keyOf? data = some pk) (time : times now) (missing : select reg st (target s pk) = .ok [])
    (given : columns = (SaveParts.split s .create data).createColumns s now (some pk) extra)
    (inserted : insertChild reg at' st s.model (columns.localTo reg s.model) = .ok below)
    (updated : columns.withoutKey s.model = [] ∧ st' = below ∨
      ∃ n, update reg below (target s pk) (columns.withoutKey s.model) = .ok (n, st')) :
    Wrote reg times s data extra st ⟨pk, true, SaveParts.split s .create data⟩ st'
  | created {pk : Value} {now at' : Instant} {st' : Store} (time : times now)
    (inserted : insert reg at' st s.model
      ((SaveParts.split s .create data).createColumns s now (s.keyOf? data) extra) = .ok (pk, st')) :
    Wrote reg times s data extra st ⟨pk, true, SaveParts.split s .create data⟩ st'

theorem createRow_ends : Job.Ends t.database reg times st (createRow t s (s.keyOf? data) data extra)
    (Wrote reg times s data extra st) :=
  .bind <| .clock fun _ hnow => .bind <| .insert fun _ _ _ _ hinsert => .pure (.created hnow hinsert)

/-- Looking for a row of the parent model changes nothing. -/
theorem parentHas_ends {pk : Value} :
    Job.Ends t.database reg times st (parentHas app t s pk) fun _ after => after = st := by
  unfold parentHas
  split
  · exact .any fun _ => rfl
  · exact .pure rfl

theorem extendParent_ends {pk : Value} (hkey : s.keyOf? data = some pk)
    (hmissing : select app.registry st (target s pk) = .ok []) :
    Job.Ends t.database app.registry times st (extendParent app t s pk data extra)
      (Wrote app.registry times s data extra st) := by
  refine .bind <| .clock fun now hnow => .bind <| .insertChild fun _ _ below hinsert => ?_
  refine .ite (fun _ => ?_) fun hrest => ?_
  · exact .bind <| .update rfl fun n st' hupdate =>
      .pure (.extended hkey hnow hmissing rfl hinsert (.inr ⟨n, hupdate⟩))
  · refine .pure (.extended hkey hnow hmissing rfl hinsert (.inl ⟨?_, rfl⟩))
    simpa using hrest

theorem writeRow_ends : Job.Ends t.database app.registry times st (writeRow app t s o data extra)
    (Wrote app.registry times s data extra st) := by
  have hcreate : Job.Ends t.database app.registry times st (createRow t s (s.keyOf? data) data extra)
    (Wrote app.registry times s data extra st) := createRow_ends
  unfold writeRow
  split
  · rename_i hkey
    rw [hkey] at hcreate
    exact .ite (fun _ => .bind (.throw _)) fun _ => hcreate
  · rename_i pk hkey
    rw [hkey] at hcreate
    refine .ite (fun _ => hcreate) fun _ => .bind <| .clock fun now hnow => ?_
    -- Where no row is found the store is as it was, and one is put below a parent's or created.
    have hafter : ∀ {pks : List Value} {st' : Store}, select app.registry st (target s pk) = .ok pks →
        st' = overwrite app.registry s.model ((SaveParts.split s .update data).updateColumns s now extra) pks st →
        ((SaveParts.split s .update data).updateColumns s now extra ≠ [] →
          ∀ k ∈ pks, checkRow app.registry st' s.model k = .ok ()) →
        Job.Ends t.database app.registry times st' (do
          if pks.length > 0 then return ⟨pk, false, SaveParts.split s .update data⟩
          if ← parentHas app t s pk then extendParent app t s pk data extra
          else if o.mustUpdate then throw (.noRowToUpdate s.name pk)
          else createRow t s (some pk) data extra) (Wrote app.registry times s data extra st) := by
      intro pks st' hpks hst' hchecked
      refine .ite (fun hpos => ?_) fun hnone => ?_
      · exact .pure (.found hkey hnow hpks (List.length_pos_iff.mp hpos) hst' hchecked)
      · obtain rfl : pks = [] := by simpa using hnone
        obtain rfl : st' = st := hst'
        refine .bind (parentHas_ends.imp fun found after hsame => ?_)
        subst hsame
        exact .ite (fun _ => extendParent_ends hkey hpks) fun _ => .ite (fun _ => .throw _) fun _ => hcreate
    refine .ite (fun hempty => ?_) fun _ => ?_
    · refine .bind <| .count rfl fun pks hpks => hafter hpks ?_ fun hsome => absurd (List.isEmpty_iff.mp hempty) hsome
      rw [List.isEmpty_iff.mp hempty, overwrite_nil]
    · refine .bind <| .update rfl fun n st' hupdate => ?_
      obtain ⟨pks, hpks, hst', hchecked, rfl⟩ := update_eq_ok hupdate
      exact hafter hpks hst' fun _ => hchecked

/-- A row that is found is overwritten, if there is anything to write, or the save fails and leaves it. -/
theorem writeRow_leads_of_found {pk : Value} {pks : List Value} (hkey : s.keyOf? data = some pk)
    (hcreate : o.mustCreate = false)
    (hselect : select app.registry st (target s pk) = .ok pks) (hfound : pks ≠ []) :
    Job.Leads t.database app.registry times st (writeRow app t s o data []) fun r st' =>
      ∃ now, times now ∧ ((∃ e, r = .error e) ∧ st' = st ∧ (SaveParts.split s .update data).updateColumns s now [] ≠ [] ∨
        r = .ok ⟨pk, false, SaveParts.split s .update data⟩ ∧
          ((SaveParts.split s .update data).updateColumns s now [] = [] ∧ st' = st ∨
            ∃ n, update app.registry st (target s pk) ((SaveParts.split s .update data).updateColumns s now []) =
              .ok (n, st'))) := by
  simp only [writeRow, hkey, hcreate, Bool.false_eq_true, if_false]
  refine .bind <| .clock fun now hnow => ?_
  have hpos : 0 < pks.length := List.length_pos_iff.mpr hfound
  refine .ite (fun hempty => ?_) fun hsome => ?_
  · refine .bind <| .count hselect <| .ite (fun _ => .pure ?_) fun hnone => absurd hpos hnone
    exact ⟨now, hnow, .inr ⟨rfl, .inl ⟨List.isEmpty_iff.mp hempty, rfl⟩⟩⟩
  · refine .bind <| .update rfl (fun n st' hupdate => ?_) fun e _ => ?_
    · obtain ⟨pks', hselect', _, _, rfl⟩ := update_eq_ok hupdate
      obtain rfl : pks = pks' := Except.ok.inj (hselect.symm.trans hselect')
      exact .ite (fun _ => .pure ⟨now, hnow, .inr ⟨rfl, .inr ⟨_, hupdate⟩⟩⟩) fun hnone => absurd hpos hnone
    · exact ⟨now, hnow, .inl ⟨⟨e, rfl⟩, rfl, by simpa using hsome⟩⟩

/-- A row that an update finds is overwritten, unless one must be created. -/
theorem writeRow_ends_of_found {pk : Value} (hkey : s.keyOf? data = some pk) (hcreate : o.mustCreate = false)
    (hfound : ∀ pks, select app.registry st (target s pk) = .ok pks → pks ≠ []) :
    Job.Ends t.database app.registry times st (writeRow app t s o data extra)
      fun row _ => row = ⟨pk, false, SaveParts.split s .update data⟩ := by
  unfold writeRow
  rw [hkey]
  refine .ite (fun hmust => absurd (hcreate.symm.trans hmust) Bool.false_ne_true) fun _ => .bind <| .clock fun now _ => ?_
  have hafter : ∀ {pks : List Value} {st' : Store}, select app.registry st (target s pk) = .ok pks →
      Job.Ends t.database app.registry times st' (do
        if pks.length > 0 then return ⟨pk, false, SaveParts.split s .update data⟩
        if ← parentHas app t s pk then extendParent app t s pk data extra
        else if o.mustUpdate then throw (.noRowToUpdate s.name pk)
        else createRow t s (some pk) data extra)
        fun row _ => row = ⟨pk, false, SaveParts.split s .update data⟩ := fun hpks =>
    .ite (fun _ => .pure rfl) fun hnone => absurd (List.length_pos_iff.mpr (hfound _ hpks)) hnone
  refine .ite (fun _ => .bind <| .count rfl fun pks hpks => hafter hpks) fun _ => .bind <| .update rfl fun n st' hupdate => ?_
  obtain ⟨pks, hpks, _, _, rfl⟩ := update_eq_ok hupdate
  exact hafter hpks

theorem Wrote.exists_split {row : WrittenRow} {st' : Store} (h : Wrote reg times s data extra st row st') :
    ∃ op, row.parts = SaveParts.split s op data := by
  cases h
  · exact ⟨.update, rfl⟩
  · exact ⟨.create, rfl⟩
  · exact ⟨.create, rfl⟩

/-- A row that stands in all tables of its inheritance is found and overwritten. -/
theorem Wrote.created_eq_false {row : WrittenRow} {st' : Store} (h : Wrote reg times s data extra st row st')
    (hcolumn : KeyIsColumn reg s.model) (hplain : row.pk.isPlain)
    (hstands : ∀ level ∈ reg.lineage s.model, row.pk ∈ st.keys level) : row.created = false := by
  have hfound : row.pk ∈ (st.keys s.model).filter (Lookup.oneOf [row.pk]).holds :=
    List.mem_filter.mpr ⟨hstands _ (reg.self_mem_lineage s.model),
      holds_oneOf_of_isPlain (List.mem_singleton.mpr rfl) hplain⟩
  cases h with
  | found => rfl
  | extended key time missing given inserted updated =>
      rw [target, select_pkIn hcolumn] at missing
      rw [Except.ok.inj missing] at hfound
      cases hfound
  | created time inserted =>
      obtain ⟨_, _, _, _, hnew, _⟩ := insert_eq_ok inserted
      rw [contains_of_mem (hstands _ (reg.rootOf_mem_lineage s.model))] at hnew
      cases hnew

/-- A save without relations does no more than write its row. -/
theorem row_ends_of_alone (halone : o.withRelations = false) :
    Job.Ends t.database app.registry times st (row app t s o data) fun pk st' =>
      ∃ row, row.pk = pk ∧ Wrote app.registry times s data [] st row st' := by
  refine .bind (writeRow_ends.imp fun row st' hwrote => ?_)
  rw [halone]
  exact .pure ⟨row, rfl, hwrote⟩

end Save

namespace Application

variable {app : Application} {t : WriteTarget} {reg : Registry} {times : Instant → Prop} {s : Schema}
  {o : SaveOptions} {ctx : Context} {data : Record} {st : Store} {Q : Value → Store → Prop}

/-- A save that succeeds has written the record and its relations. -/
theorem save_ends (ht : WriteTarget.of app.connections ctx o = .ok t)
    (h : Job.Ends t.database reg times st (Save.row app t s o data) Q) :
    Job.Ends t.database reg times st (app.save s data ctx o) Q := by
  have hwrites : Job.Ends t.database reg times st (do
      Job.ofOutcome o.check
      let t ← Job.ofOutcome (WriteTarget.of app.connections ctx o)
      Job.atomicIf t.transactional t.database (Save.row app t s o data)) Q := by
    refine .bind <| .ofOutcome fun _ _ => .bind <| .ofOutcome fun t' ht' => ?_
    obtain rfl : t = t' := Except.ok.inj (ht.symm.trans ht')
    exact h.atomicIf t.transactional (Save.rowWithin_confined _ s o data [])
  intro w hreg htimes hst pk hpk
  rw [save, Save.runJob_mapped] at hpk ⊢
  refine hwrites w hreg htimes hst pk ?_
  generalize (w.runJob _).1 = r at hpk
  cases r with
  | ok a => exact hpk
  | error f => cases hpk

/-- A save comes to what saving its row comes to, which it undoes if that fails in a transaction. -/
theorem save_leads (hcheck : o.check = .ok ()) (ht : WriteTarget.of app.connections ctx o = .ok t)
    {P : Outcome Value → Store → Prop}
    (h : Job.Leads t.database reg times st (Save.row app t s o data) fun r st' =>
      P (r.mapError ctx.mapFailure) st' ∧ ∀ f, r = .error f → P (.error (ctx.mapFailure f)) st) :
    Job.Leads t.database reg times st (app.save s data ctx o) P := by
  refine .bind <| .attempt <| .bind <| .ofOutcome ?_
  rw [hcheck]
  refine .bind <| .ofOutcome ?_
  rw [ht]
  refine .atomicIf t.transactional (Save.rowWithin_confined _ s o data []) (h.imp fun r st' hr => ?_)
  cases r with
  | ok k => exact ⟨.pure hr.1, nofun⟩
  | error f => exact ⟨.throw hr.1, fun _ _ => .throw (hr.2 f rfl)⟩

end Application

end RecordMapper
