import RecordMapper.Proofs.Read.Once
import RecordMapper.Proofs.Read.Prepared
import RecordMapper.Proofs.Schema.Declared

/-!
# Provenance — where taken rows come from

A row that a nested field takes from the guard was finished by a call
that succeeded, or was noted by a call that is still running, or was
left behind: noted by a call that failed before it could finish the row
(`reached_taken`). Nothing takes a row of the last kind back, so a field
that is silent about its failure leaves rows with placeholders in them to
the fields after it.
-/

namespace RecordMapper

/-! ## Sources of rows -/

section Sources

variable (log : List JournalEntry) (calls : List Nat) (key : GuardKey) (pk : Value) (row : Record)

/-- A call finished the row and succeeded. A call is named by what runs while it does: itself and the
calls around it. -/
def FinishedRow : Prop :=
  ∃ call, call ≠ [] ∧ ⟨call, .finished key pk row⟩ ∈ log ∧ ⟨call, .ended true⟩ ∈ log

/-- A call noted the row and is running. -/
def RowUnderway : Prop := ∃ call, call ≠ [] ∧ ⟨call, .noted key pk row⟩ ∈ log ∧ call <:+ calls

/-- A call noted the row and failed. -/
def RowLeftBehind : Prop :=
  ∃ call, call ≠ [] ∧ ⟨call, .noted key pk row⟩ ∈ log ∧ ⟨call, .ended false⟩ ∈ log

/-- A row comes from a call that finished it, from one that is at it, or from one that failed. -/
def RowSource : Prop :=
  FinishedRow log key pk row ∨ RowUnderway log calls key pk row ∨ RowLeftBehind log key pk row

end Sources

variable {log log' more : List JournalEntry} {calls calls' : List Nat} {gk key : GuardKey} {pk : Value}
  {row : Record} {rows : List (Value × Record)} {j j' j'' : Journal}

theorem FinishedRow.mono (h : FinishedRow log key pk row) (hlog : log ⊆ log') : FinishedRow log' key pk row := by
  obtain ⟨call, hne, hfinished, hended⟩ := h
  exact ⟨call, hne, hlog hfinished, hlog hended⟩

theorem RowSource.mono (h : RowSource log calls key pk row) (hlog : log ⊆ log') (hcalls : calls <:+ calls') :
    RowSource log' calls' key pk row := by
  obtain h | ⟨call, hne, hnoted, hrunning⟩ | ⟨call, hne, hnoted, hended⟩ := h
  · exact .inl (h.mono hlog)
  · exact .inr (.inl ⟨call, hne, hlog hnoted, hrunning.trans hcalls⟩)
  · exact .inr (.inr ⟨call, hne, hlog hnoted, hlog hended⟩)

/-- Every row that was taken had a source by then. -/
def TakenFromSources (log : List JournalEntry) : Prop :=
  ∀ before calls key pk row after, pk.isPlain → log = before ++ ⟨calls, .taken key pk row⟩ :: after →
    RowSource before calls key pk row

theorem TakenFromSources.append (h : TakenFromSources log)
    (hmore : ∀ calls key pk row, pk.isPlain → ⟨calls, .taken key pk row⟩ ∈ more →
      RowSource log calls key pk row) : TakenFromSources (log ++ more) := by
  intro before calls key pk row after hpk hsplit
  rcases List.append_eq_append_iff.mp hsplit with ⟨as, rfl, hrest⟩ | ⟨bs, rfl, hrest⟩
  · exact (hmore calls key pk row hpk (by simp [hrest])).mono (List.subset_append_left _ _) List.suffix_rfl
  · rcases List.append_eq_cons_iff.mp hrest.symm with ⟨rfl, hmem⟩ | ⟨bs', rfl, _⟩
    · rw [List.append_nil] at hmore
      exact hmore calls key pk row hpk (by simp [hmem])
    · exact h before calls key pk row bs' hpk rfl

namespace Journal

/-- A journal in which calls are told apart by their numbers, and every row that is known or was taken has
a source. -/
structure Sound (j : Journal) : Prop where
  logged : ∀ e ∈ j.log, ∀ call ∈ e.calls, call < j.started
  running : ∀ call ∈ j.calls, call < j.started
  known : ∀ key pk row, pk.isPlain → (j.guard.rows key).lookup pk = some row →
    RowSource j.log j.calls key pk row
  taken : TakenFromSources j.log

theorem sound_fresh : Journal.fresh.Sound where
  logged := by simp [fresh]
  running := by simp [fresh]
  known := by
    intro key pk row _ h
    cases h
  taken := by
    intro before calls key pk row after _ h
    simp [fresh] at h

/-- One journal goes on with another account, in which no call of a depth or less notes a row. -/
def Extends (depth : Nat) (j j' : Journal) : Prop :=
  ∃ more, j'.log = j.log ++ more ∧
    ∀ e ∈ more, e.calls.length ≤ depth → ∀ key pk row, e.event ≠ .noted key pk row

theorem extends_of_log {depth : Nat} (h : j'.log = j.log) : j.Extends depth j' :=
  ⟨[], by rw [h, List.append_nil], by simp⟩

theorem Extends.trans {depth : Nat} (h : j.Extends depth j') (h' : j'.Extends depth j'') :
    j.Extends depth j'' := by
  obtain ⟨more, hmore, hquiet⟩ := h
  obtain ⟨more', hmore', hquiet'⟩ := h'
  refine ⟨more ++ more', by rw [hmore', hmore, List.append_assoc], fun e he => ?_⟩
  exact (List.mem_append.mp he).elim (hquiet e) (hquiet' e)

theorem Extends.mono {depth depth' : Nat} (h : j.Extends depth' j') (hle : depth ≤ depth') :
    j.Extends depth j' := by
  obtain ⟨more, hmore, hquiet⟩ := h
  exact ⟨more, hmore, fun e he hdepth => hquiet e he (Nat.le_trans hdepth hle)⟩

/-- What deeper calls add is no row noted at a depth. -/
theorem extends_tell {depth : Nat} (hdepth : depth < j.calls.length) (events : List ReadEvent)
    (hlog : j'.log = (j.tell events).log) : j.Extends depth j' := by
  refine ⟨_, hlog, fun e he hle => ?_⟩
  obtain ⟨_, _, rfl⟩ := List.mem_map.mp he
  exact absurd hdepth (Nat.not_lt.mpr hle)

/-- What happens within running calls: they go on running, and only calls within them note rows. -/
structure Follows (j j' : Journal) : Prop where
  calls : j'.calls = j.calls
  started : j.started ≤ j'.started
  log : j.Extends j.calls.length j'
  sound : j.Sound → j'.Sound

theorem Follows.refl (j : Journal) : j.Follows j := ⟨rfl, Nat.le_refl _, extends_of_log rfl, id⟩

theorem Follows.trans (h : j.Follows j') (h' : j'.Follows j'') : j.Follows j'' where
  calls := h'.calls.trans h.calls
  started := Nat.le_trans h.started h'.started
  log := h.log.trans (h.calls ▸ h'.log)
  sound := h'.sound ∘ h.sound

/-- What running calls add to the account alone is sound if the rows that they take have sources. -/
theorem Sound.tell (h : j.Sound) {events : List ReadEvent}
    (hevents : ∀ key pk row, pk.isPlain → .taken key pk row ∈ events → RowSource j.log j.calls key pk row) :
    (j.tell events).Sound where
  logged e he call hcall := by
    rcases List.mem_append.mp he with he | he
    · exact h.logged e he call hcall
    · obtain ⟨_, _, rfl⟩ := List.mem_map.mp he
      exact h.running call hcall
  running := h.running
  known key pk row hpk hrow :=
    (h.known key pk row hpk hrow).mono (List.subset_append_left _ _) List.suffix_rfl
  taken := by
    refine h.taken.append fun calls key pk row hpk hmem => ?_
    obtain ⟨_, hevent, hentry⟩ := List.mem_map.mp hmem
    cases hentry
    exact hevents key pk row hpk hevent

theorem follows_tell {events : List ReadEvent} (hquiet : ∀ key pk row, .noted key pk row ∉ events)
    (hevents : j.Sound → ∀ key pk row, pk.isPlain → .taken key pk row ∈ events →
      RowSource j.log j.calls key pk row) : j.Follows (j.tell events) where
  calls := rfl
  started := Nat.le_refl _
  log := by
    refine ⟨_, rfl, fun e he _ key pk row hnoted => ?_⟩
    obtain ⟨event, hevent, rfl⟩ := List.mem_map.mp he
    exact hquiet key pk row (hnoted ▸ hevent)
  sound h := h.tell (hevents h)

/-- Taking rows that are known is sound. -/
theorem follows_take (j : Journal) (gk : GuardKey) (pks : List Value) : j.Follows (j.take gk pks) := by
  refine follows_tell (fun key pk row hnoted => ?_) fun h key pk row hpk hevent => ?_
  · obtain ⟨_, _, hpk⟩ := List.mem_filterMap.mp hnoted
    obtain ⟨_, _, hsame⟩ := Option.map_eq_some_iff.mp hpk
    cases hsame
  · obtain ⟨asked, _, hasked⟩ := List.mem_filterMap.mp hevent
    obtain ⟨taken, hget, hsame⟩ := Option.map_eq_some_iff.mp hasked
    cases hsame
    exact h.known _ _ _ hpk hget

theorem Sound.note (h : j.Sound) (hcalls : j.calls ≠ []) : (j.note gk rows).Sound := by
  have htell : (j.tell (rows.map (fun e => .fetched gk e.1) ++
      (newRows (j.guard.rows gk) rows).map fun e => .noted gk e.1 e.2)).Sound := by
    refine h.tell fun key pk row _ hmem => ?_
    simp at hmem
  refine ⟨htell.logged, htell.running, fun key pk row hpk hrow => ?_, htell.taken⟩
  have hrows : (j.note gk rows).guard.rows key =
      if key = gk then j.guard.rows gk ++ newRows (j.guard.rows gk) rows else j.guard.rows key :=
    rows_registerMissing j.guard gk key rows
  rw [hrows] at hrow
  split at hrow
  · rename_i hkey
    subst hkey
    rw [List.lookup_append, Option.or_eq_some_iff] at hrow
    rcases hrow with hold | ⟨_, hnew⟩
    · exact htell.known key pk row hpk hold
    · refine .inr (.inl ⟨j.calls, hcalls, List.mem_append_right _ (List.mem_map.mpr ⟨_, ?_, rfl⟩),
        List.suffix_rfl⟩)
      exact List.mem_append_right _ (List.mem_map.mpr ⟨_, mem_of_lookup hnew, rfl⟩)
  · exact htell.known key pk row hpk hrow

theorem lookup_foldl_insertEntry {known : Keyed Record} {rows : List (Value × Record)}
    (h : (rows.foldl (fun acc e => insertEntry acc e.1 e.2) known).lookup pk = some row) :
    (pk, row) ∈ rows ∨ pk ∉ rows.map Prod.fst ∧ known.lookup pk = some row := by
  induction rows generalizing known with
  | nil => exact .inr ⟨List.not_mem_nil, h⟩
  | cons e rest ih =>
      rcases ih h with hmem | ⟨hnone, hknown⟩
      · exact .inl (List.mem_cons_of_mem e hmem)
      · by_cases hpk : pk = e.1
        · subst hpk
          rw [lookup_insertEntry_self] at hknown
          cases hknown
          exact .inl List.mem_cons_self
        · rw [lookup_insertEntry_ne _ hpk] at hknown
          exact .inr ⟨by simp [hpk, hnone], hknown⟩

/-- A row that is known once rows are finished is one of these or was known before. -/
theorem lookup_finish (h : ((j.finish gk rows).guard.rows key).lookup pk = some row) :
    key = gk ∧ (pk, row) ∈ rows ∨
      (key = gk → pk ∉ rows.map Prod.fst) ∧ (j.guard.rows key).lookup pk = some row := by
  have hrows : (j.finish gk rows).guard.rows key = if key = gk then
      rows.foldl (fun acc e => insertEntry acc e.1 e.2) (j.guard.rows gk) else j.guard.rows key :=
    Guard.rows_insert j.guard.families gk key _
  rw [hrows] at h
  split at h
  · rename_i hkey
    subst hkey
    exact (lookup_foldl_insertEntry h).imp (⟨rfl, ·⟩) fun ⟨hnone, hknown⟩ => ⟨fun _ => hnone, hknown⟩
  · rename_i hkey
    exact .inr ⟨fun hsame => absurd hsame hkey, h⟩

/-! ## Calls -/

theorem Sound.enter (h : j.Sound) : j.enter.Sound where
  logged e he call hcall := Nat.lt_succ_of_lt (h.logged e he call hcall)
  running := by
    rintro call (_ | ⟨_, hcall⟩)
    · exact Nat.lt_succ_self _
    · exact Nat.lt_succ_of_lt (h.running call hcall)
  known key pk row hpk hrow := (h.known key pk row hpk hrow).mono (List.Subset.refl _) (List.suffix_cons _ _)
  taken := h.taken

/-- At the end of a call, every row that is known has a source around the call, or was finished by it if
it succeeds, or has any source if it fails. -/
theorem sound_leave {call : Nat} {around : List Nat} {well : Bool} (hcalls : j.calls = call :: around)
    (hlogged : ∀ e ∈ j.log, ∀ call ∈ e.calls, call < j.started)
    (hrunning : ∀ call ∈ j.calls, call < j.started)
    (htaken : TakenFromSources j.log)
    (hknown : ∀ key pk row, pk.isPlain → (j.guard.rows key).lookup pk = some row →
      RowSource j.log around key pk row ∨ well = true ∧ ⟨j.calls, .finished key pk row⟩ ∈ j.log ∨
        well = false ∧ RowSource j.log j.calls key pk row) : (j.leave well).Sound where
  logged e he c hc := by
    rcases List.mem_append.mp he with he | he
    · exact hlogged e he c hc
    · obtain rfl := List.mem_singleton.mp he
      exact hrunning c hc
  running c hc := hrunning c (List.mem_of_mem_tail hc)
  known key pk row hpk hrow := by
    have hne : j.calls ≠ [] := hcalls ▸ List.cons_ne_nil _ _
    have haround : (j.leave well).calls = around := by
      show j.calls.tail = around
      rw [hcalls]
      rfl
    have hsub : j.log ⊆ (j.leave well).log := List.subset_append_left _ _
    have hended : ⟨j.calls, .ended well⟩ ∈ (j.leave well).log :=
      List.mem_append_right _ List.mem_cons_self
    rw [haround]
    rcases hknown key pk row hpk hrow with h | ⟨rfl, hfinished⟩ | ⟨rfl, hsource⟩
    · exact h.mono hsub List.suffix_rfl
    · exact .inl ⟨j.calls, hne, hsub hfinished, hended⟩
    · rcases hsource with h | ⟨by', hby, hnoted, hsuffix⟩ | h
      · exact .inl (h.mono hsub)
      · -- A row that the failed call itself noted is left behind.
        rw [hcalls, List.suffix_cons_iff, ← hcalls] at hsuffix
        rcases hsuffix with rfl | hsuffix
        · exact .inr (.inr ⟨_, hne, hsub hnoted, hended⟩)
        · exact .inr (.inl ⟨by', hby, hsub hnoted, hsuffix⟩)
      · exact RowSource.mono (.inr (.inr h)) hsub List.suffix_rfl
  taken := htaken.append fun _ _ _ _ _ hmem => by simp at hmem

theorem follows_leave {well : Bool} (hcalls : j'.calls = j.started :: j.calls)
    (hstarted : j.started ≤ j'.started) (hlog : j.Extends j.calls.length j')
    (hsound : j.Sound → (j'.leave well).Sound) : j.Follows (j'.leave well) where
  calls := by
    show j'.calls.tail = _
    rw [hcalls]
    rfl
  started := hstarted
  log := hlog.trans (extends_tell (by rw [hcalls]; exact Nat.lt_succ_self _) [.ended well] rfl)
  sound := hsound

/-- A call that goes on with no rows. -/
theorem follows_idle (j : Journal) (well : Bool) : j.Follows (j.enter.leave well) := by
  refine follows_leave rfl (Nat.le_succ _) (extends_of_log rfl) fun h => ?_
  exact sound_leave rfl h.enter.logged h.enter.running h.taken fun key pk row hpk hrow =>
    .inl (h.known key pk row hpk hrow)

section Rows

variable (h : (j.enter.note gk rows).Follows j')
include h

theorem calls_of_note : j'.calls = j.started :: j.calls := h.calls

theorem extends_of_note : j.Extends j.calls.length j' := by
  have henter : j.Extends j.calls.length j.enter := extends_of_log rfl
  have hnote : j.enter.Extends j.calls.length (j.enter.note gk rows) :=
    extends_tell (Nat.lt_succ_self _) _ rfl
  exact henter.trans (hnote.trans (h.log.mono (Nat.le_succ _)))

theorem sound_of_note (hsound : j.Sound) : j'.Sound := h.sound (hsound.enter.note (List.cons_ne_nil _ _))

/-- A call that fails. -/
theorem follows_failed : j.Follows (j'.leave false) := by
  refine follows_leave (calls_of_note h) (Nat.le_trans (Nat.le_succ _) h.started) (extends_of_note h)
    fun hsound => ?_
  have hend := sound_of_note h hsound
  exact sound_leave (calls_of_note h) hend.logged hend.running hend.taken fun key pk row hpk hrow =>
    .inr (.inr ⟨rfl, hend.known key pk row hpk hrow⟩)

/-- The rows that a call notes are those it goes on with. -/
theorem of_noted (hsound : j.Sound) (hnoted : ⟨j'.calls, .noted key pk row⟩ ∈ j'.log) :
    key = gk ∧ pk ∈ rows.map Prod.fst := by
  obtain ⟨more, hmore, hquiet⟩ := h.log
  rw [hmore] at hnoted
  rcases List.mem_append.mp hnoted with hnoted | hnoted
  · rcases List.mem_append.mp hnoted with hbefore | hnoted
    · -- The number of the call was not in use before.
      have hnew := hsound.logged _ hbefore j.started (by rw [calls_of_note h]; exact List.mem_cons_self)
      exact absurd hnew (Nat.lt_irrefl _)
    · obtain ⟨event, hevent, hentry⟩ := List.mem_map.mp hnoted
      obtain ⟨_, rfl⟩ := JournalEntry.mk.inj hentry
      rcases List.mem_append.mp hevent with hfetched | hnew
      · obtain ⟨_, _, hfetched⟩ := List.mem_map.mp hfetched
        cases hfetched
      · obtain ⟨e, he, hsame⟩ := List.mem_map.mp hnew
        cases hsame
        exact ⟨rfl, List.mem_map_of_mem (newRows_subset _ _ he)⟩
  · exact absurd rfl (hquiet _ hnoted (by rw [h.calls]) key pk row)

/-- A call that finishes the rows that it goes on with. -/
theorem follows_finished {finished : List (Value × Record)}
    (hall : ∀ pk : Value, pk.isPlain → pk ∈ rows.map Prod.fst → pk ∈ finished.map Prod.fst) :
    j.Follows ((j'.finish gk finished).leave true) := by
  have hcalls := calls_of_note h
  have hdepth : j.calls.length < j'.calls.length := by
    rw [hcalls]
    exact Nat.lt_succ_self _
  refine follows_leave hcalls (Nat.le_trans (Nat.le_succ _) h.started)
    ((extends_of_note h).trans (extends_tell hdepth _ rfl)) fun hsound => ?_
  have hend := sound_of_note h hsound
  have htell : (j'.tell (finished.map fun e => .finished gk e.1 e.2)).Sound :=
    hend.tell fun key pk row _ hmem => by simp at hmem
  refine sound_leave (j := j'.finish gk finished) hcalls htell.logged htell.running htell.taken
    fun key pk row hpk hrow => ?_
  rcases lookup_finish hrow with ⟨rfl, hmem⟩ | ⟨hnone, hold⟩
  · refine .inr (.inl ⟨rfl, List.mem_append_right _ (List.mem_map.mpr ⟨_, ?_, rfl⟩)⟩)
    exact List.mem_map.mpr ⟨_, hmem, rfl⟩
  · -- A row that is not among the finished ones was not noted by this call.
    have hsource : RowSource j'.log j.calls key pk row → RowSource (j'.finish gk finished).log j.calls key pk row :=
      fun h => h.mono (List.subset_append_left _ _) List.suffix_rfl
    refine .inl (hsource ?_)
    rcases hend.known key pk row hpk hold with hsource | ⟨by', hby, hnoted, hsuffix⟩ | hsource
    · exact .inl hsource
    · rw [hcalls, List.suffix_cons_iff, ← hcalls] at hsuffix
      rcases hsuffix with rfl | hsuffix
      · obtain ⟨hkey, hmem⟩ := of_noted h hsound hnoted
        exact absurd (hall pk hpk hmem) (hnone hkey)
      · exact .inr (.inl ⟨by', hby, hnoted, hsuffix⟩)
    · exact .inr (.inr hsource)

end Rows

end Journal

end RecordMapper
