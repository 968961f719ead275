import RecordMapper.Proofs.Read.Histories
import RecordMapper.Proofs.Read.Prepared
import RecordMapper.Proofs.Read.Resolving

/-!
# Once — no row is fetched twice under one guard key

A nested read asks for rows that the guard does not know and notes every
row it fetches before it resolves a field. So a row is fetched by one
call alone, noted by it, and finished by it or not at all; and every
nested call that fetches rows leaves fewer rows that the guard does not
know, of which there were only so many.
-/

namespace RecordMapper

/-- From one moment to another the stores stay and the journal grows well. -/
def Moment.Grows (m m' : Moment) : Prop := m.world.Unchanged m'.world ∧ m.journal.Grows m'.journal

theorem Moment.composes_grows : Moment.Composes Moment.Grows where
  refl m := ⟨.refl m.world, .refl m.journal⟩
  trans h h' := ⟨h.1.trans h'.1, h.2.trans h'.2⟩

variable {app : Application} {s : Schema} {key : SchemaField} {ctx : Context} {plan : ReadPlan}
  {rows : List Record} {m : Moment}

/-! ## Keys of entries -/

/-- Rows under their keys. -/
def keyedBy (pkName : String) (rows : List Record) (f : Record → Record) : List (Value × Record) :=
  rows.map fun row => (row.getD pkName, f row)

theorem map_keyedBy (pkName : String) (rows : List Record) (f : Record → Record) :
    (keyedBy pkName rows f).map Prod.fst = rows.map (·.getD pkName) := by
  rw [keyedBy, List.map_map]
  rfl

/-- What a read knows of the keys of its rows: they are distinct if the key is a column, and not plain
if it leads to other rows. -/
def KeysApart (s : Schema) (key : SchemaField) (rows : List Record) : Prop :=
  if key.isIsolated then ∀ row ∈ rows, (row.getD s.pkName).isPlain = false
  else (rows.map (·.getD s.pkName)).Nodup

theorem KeysApart.plainOnce (h : KeysApart s key rows) (f : Record → Record) :
    Journal.PlainOnce (keyedBy s.pkName rows f) := by
  intro pk hpk
  rw [map_keyedBy]
  unfold KeysApart at h
  split at h
  · rw [List.count_eq_zero.mpr]
    · exact Nat.zero_le 1
    · intro hmem
      obtain ⟨row, hrow, rfl⟩ := List.mem_map.mp hmem
      rw [h row hrow] at hpk
      cases hpk
  · exact List.nodup_iff_count_le_one.mp h pk

section Prepared

variable (h : PreparedKeys s key rows)
include h

theorem PreparedKeys.keysApart : KeysApart s key rows := by
  unfold KeysApart
  unfold PreparedKeys at h
  split at h
  · rename_i hisolated
    rw [if_pos hisolated]
    intro row hrow
    rw [h row hrow]
    exact not_isPlain_placeholder key
  · rename_i hdirect
    rw [if_neg hdirect]
    exact h

theorem PreparedKeys.keysStay : KeysStay s key (rows.map (·.getD s.pkName)) rows := by
  have hapart := h.keysApart
  unfold KeysStay
  unfold KeysApart at hapart
  split
  · rename_i hisolated
    rwa [if_pos hisolated] at hapart
  · rfl

/-- A key that leads to one row is null before it is resolved. -/
theorem PreparedKeys.eq_null (hisolated : key.isIsolated) (hsingle : key.relatedSingle) :
    ∀ v ∈ rows.map (·.getD s.pkName), v = .null := by
  unfold PreparedKeys at h
  rw [if_pos hisolated] at h
  intro v hv
  obtain ⟨row, hrow, rfl⟩ := List.mem_map.mp hv
  rw [h row hrow, SchemaField.placeholder, if_pos hsingle]

end Prepared

/-- Finished rows have the keys of the rows, as far as these are plain. -/
theorem finished_keys (hkey : s.KeyField app.registry key) (hnames : (s.fieldList.map (·.name)).Nodup)
    (hplan : plan.Made s key ctx) (hrows : KeysApart s key rows) {rows' : List Record}
    (hstay : KeysStay s key (rows.map (·.getD s.pkName)) rows') :
    Journal.PlainOnce (keyedBy s.pkName (rows'.map plan.finish) id) ∧
      ∀ pk : Value, pk.isPlain → pk ∈ (keyedBy s.pkName (rows'.map plan.finish) id).map Prod.fst →
        pk ∈ rows.map (·.getD s.pkName) := by
  have hfinish : (keyedBy s.pkName (rows'.map plan.finish) id).map Prod.fst = rows'.map fun row =>
      if s.pkName ∈ ctx.forced.map Prod.fst then .null else row.getD s.pkName := by
    rw [map_keyedBy, List.map_map]
    exact List.map_congr_left fun row _ => ReadPlan.getD_finish hkey hnames hplan row
  rw [hfinish]
  have hcount : ∀ pk : Value, pk.isPlain → (rows'.map fun row =>
      if s.pkName ∈ ctx.forced.map Prod.fst then .null else row.getD s.pkName).count pk ≤
        (rows.map (·.getD s.pkName)).count pk := by
    intro pk hpk
    have hnone : ∀ l : List Value, (∀ v ∈ l, v.isPlain = false) → l.count pk = 0 := by
      refine fun l hl => List.count_eq_zero.mpr fun hmem => ?_
      rw [hl pk hmem] at hpk
      cases hpk
    by_cases hforced : s.pkName ∈ ctx.forced.map Prod.fst
    · rw [hnone]
      · exact Nat.zero_le _
      · intro v hv
        obtain ⟨_, _, rfl⟩ := List.mem_map.mp hv
        rw [if_pos hforced]
        rfl
    · simp only [if_neg hforced]
      unfold KeysStay at hstay
      split at hstay
      · rw [hnone]
        · exact Nat.zero_le _
        · intro v hv
          obtain ⟨row, hrow, rfl⟩ := List.mem_map.mp hv
          exact hstay row hrow
      · rw [hstay]
  constructor
  · intro pk hpk
    rw [hfinish]
    have honce := hrows.plainOnce id pk hpk
    rw [map_keyedBy] at honce
    exact (hcount pk hpk).trans honce
  · intro pk hpk hmem
    exact List.count_pos_iff.mp ((List.count_pos_iff.mpr hmem).trans_le (hcount pk hpk))

namespace Journaling

/-- Resolving rows is noting them, resolving their fields, and finishing them if that succeeds. -/
theorem exec_resolveRows (together : Bool) (read : Schema → Source → Context → Journaling (List Record)) :
    (resolveRows app together read s ctx plan rows).exec m =
      match (ofJob (app.collect together ctx plan (rows.map (·.getD s.pkName))) >>= fun collected =>
          collected.foldlM (resolveField app read s ctx) rows).exec
            ⟨m.journal.note (ctx.guardKey s.id) (keyedBy s.pkName rows plan.finish), m.world⟩ with
      | (.ok rows', m') => (.ok (rows'.map plan.finish),
          ⟨m'.journal.finish (ctx.guardKey s.id) (keyedBy s.pkName (rows'.map plan.finish) id), m'.world⟩)
      | (.error e, m') => (.error e, m') := by
  rw [resolveRows, exec_bind, exec_record]
  simp only
  rw [← bind_assoc, exec_bind]
  unfold keyedBy
  generalize (ofJob (app.collect together ctx plan (rows.map (·.getD s.pkName))) >>= fun collected =>
    collected.foldlM (resolveField app read s ctx) rows).exec _ = result
  obtain ⟨outcome, m'⟩ := result
  cases outcome <;> rfl

/-! ## One call -/

/-- If none of the rows that a call goes on with is known yet, and its nested reads let journals grow
well, so does the call. -/
theorem leads_resolveRows (hkey : s.KeyField app.registry key)
    (hnames : (s.fieldList.map (·.name)).Nodup) (hplan : plan.Made s key ctx) (together : Bool)
    (hrows : PreparedKeys s key rows)
    (hnew : ∀ row ∈ rows, (row.getD s.pkName).isPlain →
      m.journal.guard.contains (ctx.guardKey s.id) (row.getD s.pkName) = false)
    {read read' : Schema → Source → Context → Journaling (List Record)}
    (hread : ∀ m', Moment.Grows
        ⟨m.journal.note (ctx.guardKey s.id) (keyedBy s.pkName rows plan.finish), m.world⟩ m' →
      ∀ f nested, app.nested? s f = .ok (some nested) → ∀ missing,
        (∀ pk ∈ missing, m'.journal.guard.contains ((ctx.derive f.name).guardKey nested.id) pk = false) →
          LeadsTo Moment.Grows (fun _ => True) m' (read nested (.keys missing) (ctx.derive f.name))
            (read' nested (.keys missing) (ctx.derive f.name))) :
    LeadsTo Moment.Grows (fun _ => True) m (resolveRows app together read s ctx plan rows)
      (resolveRows app together read' s ctx plan rows) := by
  have honce := hrows.keysApart.plainOnce plan.finish
  have hunknown : ∀ pk : Value, pk.isPlain → pk ∈ (keyedBy s.pkName rows plan.finish).map Prod.fst →
      m.journal.guard.contains (ctx.guardKey s.id) pk = false := by
    intro pk hpk hmem
    rw [map_keyedBy] at hmem
    obtain ⟨row, hrow, rfl⟩ := List.mem_map.mp hmem
    exact hnew row hrow hpk
  have hnote := Journal.grows_note honce hunknown
  obtain ⟨hsame, hleads, hstay⟩ := leads_resolveFields Moment.composes_grows
    (fun m' _ w hw => ⟨hw, .refl m'.journal⟩)
    (fun m' _ gk pks => ⟨.refl m'.world, Journal.grows_take m'.journal gk pks⟩) hread
    (fun c hc _ look _ hstay => keysStay_assignField hkey hc look hstay) hkey hplan together
    hrows.eq_null hrows.keysStay
  refine ⟨?_, ?_, fun _ _ => trivial⟩
  · rw [exec_resolveRows, exec_resolveRows, hsame]
  · rw [exec_resolveRows]
    generalize (ofJob (app.collect together ctx plan (rows.map (·.getD s.pkName))) >>= fun collected =>
      collected.foldlM (resolveField app read s ctx) rows).exec _ = result at hleads hstay
    obtain ⟨outcome, m'⟩ := result
    cases outcome with
    | error e => exact ⟨hleads.1, hnote.trans hleads.2⟩
    | ok rows' =>
        obtain ⟨hfinished, hsub⟩ := finished_keys hkey hnames hplan hrows.keysApart (hstay rows' rfl)
        refine ⟨hleads.1, Journal.grows_finish honce hunknown hleads.2 hfinished fun pk hpk hmem => ?_⟩
        rw [map_keyedBy]
        exact hsub pk hpk hmem

/-- A call that begins and ends lets a journal grow well if what it does in between does. -/
theorem leads_call {α : Type} {r r' : Journaling α}
    (h : LeadsTo Moment.Grows (fun _ => True) ⟨m.journal.enter, m.world⟩ r r') :
    LeadsTo Moment.Grows (fun _ => True) m (call r) (call r') := by
  refine ⟨?_, ?_, fun _ _ => trivial⟩
  · rw [exec_call, exec_call, h.same]
  · rw [exec_call]
    exact ⟨h.leads.1, (Journal.grows_enter m.journal).trans (h.leads.2.trans (Journal.grows_leave _ _))⟩

end Journaling

end RecordMapper
