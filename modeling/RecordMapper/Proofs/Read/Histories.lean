import RecordMapper.Proofs.Read.Journal
import RecordMapper.Proofs.Read.Plans

/-!
# Histories — what becomes of one row under one guard key

The history of a row under a guard key is what a journal says about it
in order. A row that the guard does not know has no history. A journal
grows well if a row that had no history comes to be fetched and noted,
and then perhaps finished, and a row that had one is left alone.
-/

namespace RecordMapper

/-! ## What the guard knows of plain keys -/

namespace Guard

variable {g : Guard} {key key' : GuardKey} {pk : Value} {rows : List (Value × Record)}

theorem contains_iff (h : pk.isPlain) : g.contains key pk = true ↔ pk ∈ (g.rows key).map Prod.fst := by
  rw [contains, get?, Keyed.get?, Keyed.seat_of_isPlain h, lookup_isSome_iff_mem_keys]

theorem contains_eq_false_iff (h : pk.isPlain) :
    g.contains key pk = false ↔ pk ∉ (g.rows key).map Prod.fst := by
  rw [← contains_iff h, Bool.not_eq_true]

theorem rows_insert (families : List (GuardKey × Keyed Record)) (key key' : GuardKey)
    (entries : Keyed Record) : Guard.rows ⟨insertEntry families key entries⟩ key' =
      if key' = key then entries else Guard.rows ⟨families⟩ key' := by
  unfold rows
  split
  · rename_i h
    rw [h, lookup_insertEntry_self]
    rfl
  · rename_i h
    rw [lookup_insertEntry_ne _ h]

end Guard

namespace Journal

/-! ## New rows -/

theorem foldl_registerMissing (known : Keyed Record) (rows : List (Value × Record)) :
    rows.foldl (fun acc e => if (acc.lookup e.1).isSome then acc else acc ++ [e]) known =
      known ++ newRows known rows := by
  induction rows generalizing known with
  | nil => simp [newRows]
  | cons e rest ih =>
      rw [List.foldl_cons, newRows]
      split
      · exact ih known
      · rw [ih, List.append_assoc, List.singleton_append]

theorem rows_registerMissing (g : Guard) (key key' : GuardKey) (rows : List (Value × Record)) :
    (g.registerMissing key rows).rows key' =
      if key' = key then g.rows key ++ newRows (g.rows key) rows else g.rows key' := by
  rw [Guard.registerMissing, Guard.rows_insert, foldl_registerMissing]

theorem newRows_subset (known : Keyed Record) (rows : List (Value × Record)) :
    newRows known rows ⊆ rows := by
  induction rows generalizing known with
  | nil => exact List.Subset.refl []
  | cons e rest ih =>
      rw [newRows]
      split
      · exact List.subset_cons_of_subset e (ih known)
      · exact List.cons_subset_cons e (ih _)

/-- A row that is not known is new. -/
theorem mem_newRows {known : Keyed Record} {rows : List (Value × Record)} {pk : Value}
    (h : pk ∈ rows.map Prod.fst) : pk ∈ known.map Prod.fst ∨ pk ∈ (newRows known rows).map Prod.fst := by
  induction rows generalizing known with
  | nil => cases h
  | cons e rest ih =>
      rw [newRows]
      split
      · rename_i he
        rcases List.mem_cons.mp h with rfl | h
        · exact .inl (lookup_isSome_iff_mem_keys.mp he)
        · exact ih h
      · rcases List.mem_cons.mp h with rfl | h
        · exact .inr List.mem_cons_self
        · rcases @ih (known ++ [e]) h with hmem | hmem
          · rw [List.map_append, List.mem_append] at hmem
            refine hmem.imp_right fun hmem => ?_
            rw [List.mem_singleton.mp hmem]
            exact List.mem_cons_self
          · exact .inr (List.mem_cons_of_mem _ hmem)

/-- The rows of a key that comes once and is not known are all new. -/
theorem filter_newRows {known : Keyed Record} {rows : List (Value × Record)} {pk : Value}
    (hknown : pk ∉ known.map Prod.fst) (hcount : (rows.map Prod.fst).count pk ≤ 1) :
    (newRows known rows).filter (·.1 == pk) = rows.filter (·.1 == pk) := by
  induction rows generalizing known with
  | nil => rfl
  | cons e rest ih =>
      rw [List.map_cons, List.count_cons] at hcount
      rw [newRows]
      split
      · rename_i he
        have hne : (e.1 == pk) = false := by
          refine beq_eq_false_iff_ne.mpr fun hsame => hknown ?_
          exact hsame ▸ lookup_isSome_iff_mem_keys.mp he
        rw [List.filter_cons_of_neg (by simp [hne]), ih hknown (by omega)]
      · by_cases hsame : e.1 = pk
        · have hnone : pk ∉ rest.map Prod.fst := by
            rw [hsame, beq_self_eq_true, if_pos rfl] at hcount
            exact List.count_eq_zero.mp (by omega)
          have hempty : ∀ l ⊆ rest, l.filter (·.1 == pk) = [] := by
            intro l hl
            refine List.filter_eq_nil_iff.mpr fun x hx hxpk => hnone ?_
            exact beq_iff_eq.mp hxpk ▸ List.mem_map_of_mem (hl hx)
          rw [List.filter_cons, List.filter_cons, hempty _ (newRows_subset _ _),
            hempty _ (List.Subset.refl rest)]
        · have hne : (e.1 == pk) = false := beq_eq_false_iff_ne.mpr hsame
          rw [List.filter_cons_of_neg (by simp [hne]), List.filter_cons_of_neg (by simp [hne])]
          refine ih (fun hmem => ?_) (by omega)
          rw [List.map_append, List.mem_append] at hmem
          rcases hmem with hmem | hmem
          · exact hknown hmem
          · exact hsame (List.mem_singleton.mp hmem).symm

/-! ## Histories -/

/-- Rows of one key are none or one if the key comes at most once. -/
theorem filter_key_cases {rows : List (Value × Record)} {pk : Value}
    (h : (rows.map Prod.fst).count pk ≤ 1) :
    pk ∉ rows.map Prod.fst ∧ rows.filter (·.1 == pk) = [] ∨
      pk ∈ rows.map Prod.fst ∧ ∃ row, rows.filter (·.1 == pk) = [(pk, row)] := by
  have hlength : (rows.filter (·.1 == pk)).length = (rows.map Prod.fst).count pk := by
    rw [List.count, List.countP_map, List.countP_eq_length_filter]
    rfl
  by_cases hmem : pk ∈ rows.map Prod.fst
  · have hpos : 0 < (rows.map Prod.fst).count pk := List.count_pos_iff.mpr hmem
    obtain ⟨e, he⟩ := List.length_eq_one_iff.mp (show (rows.filter (·.1 == pk)).length = 1 by omega)
    have hkey : e.1 = pk := by
      have := (List.mem_filter.mp (he ▸ List.mem_singleton_self e)).2
      exact beq_iff_eq.mp this
    exact .inr ⟨hmem, e.2, hkey ▸ he⟩
  · rw [List.count_eq_zero.mpr hmem] at hlength
    exact .inl ⟨hmem, List.length_eq_zero_iff.mp hlength⟩

end Journal

/-- Whether a row of a primary key is fetched or recorded under a guard key. -/
def ReadEvent.about (key : GuardKey) (pk : Value) : ReadEvent → Bool
  | .fetched k p => k == key && p == pk
  | .noted k p _ => k == key && p == pk
  | .finished k p _ => k == key && p == pk
  | _ => false

namespace Journal

variable {j j' j'' : Journal} {gk key : GuardKey} {pk : Value} {rows : List (Value × Record)}

/-- What a journal says about the row of a primary key under a guard key, in order. -/
def history (j : Journal) (key : GuardKey) (pk : Value) : List ReadEvent :=
  (j.log.map JournalEntry.event).filter (ReadEvent.about key pk)

theorem events_tell (j : Journal) (events : List ReadEvent) :
    (j.tell events).log.map JournalEntry.event = j.log.map JournalEntry.event ++ events := by
  rw [tell, List.map_append, List.map_map]
  exact congrArg (_ ++ ·) (List.map_id events)

theorem history_tell (j : Journal) (events : List ReadEvent) :
    (j.tell events).history key pk = j.history key pk ++ events.filter (ReadEvent.about key pk) := by
  rw [history, events_tell, List.filter_append, history]

theorem history_note : (j.note gk rows).history key pk = j.history key pk ++
    if key = gk then (rows.filter (·.1 == pk)).map (fun e => .fetched gk e.1) ++
      ((newRows (j.guard.rows gk) rows).filter (·.1 == pk)).map (fun e => .noted gk e.1 e.2)
    else [] := by
  have htell : (j.note gk rows).history key pk = j.history key pk ++ (rows.map (fun e => ReadEvent.fetched gk e.1) ++
      (newRows (j.guard.rows gk) rows).map fun e => ReadEvent.noted gk e.1 e.2).filter (ReadEvent.about key pk) :=
    history_tell j _
  rw [htell, List.filter_append, List.filter_map, List.filter_map]
  split
  · rename_i h
    subst h
    congr 3
    all_goals
      refine List.filter_congr fun e _ => ?_
      simp [ReadEvent.about]
  · rename_i h
    have hnone : ∀ f : Value × Record → ReadEvent, (∀ e, ReadEvent.about key pk (f e) = false) →
        ∀ l : List (Value × Record), l.filter (ReadEvent.about key pk ∘ f) = [] := fun f hf l =>
      List.filter_eq_nil_iff.mpr fun e _ => by simp [hf e]
    rw [hnone _ fun e => ?_, hnone _ fun e => ?_]
    · rfl
    all_goals simp [ReadEvent.about, Ne.symm h]

theorem history_finish : (j.finish gk rows).history key pk = j.history key pk ++
    if key = gk then (rows.filter (·.1 == pk)).map (fun e => .finished gk e.1 e.2) else [] := by
  have htell : (j.finish gk rows).history key pk = j.history key pk ++
      (rows.map fun e => ReadEvent.finished gk e.1 e.2).filter (ReadEvent.about key pk) := history_tell j _
  rw [htell, List.filter_map]
  split
  · rename_i h
    subst h
    congr 2
    refine List.filter_congr fun e _ => ?_
    simp [ReadEvent.about]
  · rename_i h
    refine congrArg (_ ++ ·) (List.map_eq_nil_iff.mpr (List.filter_eq_nil_iff.mpr fun e _ => ?_))
    simp [ReadEvent.about, Ne.symm h]

/-! ## Growing -/

/-- A row that the guard does not know has no history. -/
def Told (j : Journal) : Prop :=
  ∀ key pk, pk.isPlain → j.guard.contains key pk = false → j.history key pk = []

/-- The history of a row that was fetched and noted, and perhaps finished. -/
def Settled (key : GuardKey) (pk : Value) (h : List ReadEvent) : Prop :=
  ∃ row, h = [.fetched key pk, .noted key pk row] ∨
    ∃ row', h = [.fetched key pk, .noted key pk row, .finished key pk row']

/-- A journal that grows well: what is known stays known, no call is cut off, and only rows without a
history get one. -/
structure Grows (j j' : Journal) : Prop where
  known : ∀ key pk, pk.isPlain → j.guard.contains key pk = true → j'.guard.contains key pk = true
  whole : .cutOff ∉ j.log.map JournalEntry.event → .cutOff ∉ j'.log.map JournalEntry.event
  told : j.Told → j'.Told
  history : j.Told → ∀ key pk, pk.isPlain → j'.history key pk = j.history key pk ∨
    j.history key pk = [] ∧ Settled key pk (j'.history key pk)

theorem Settled.ne_nil {h : List ReadEvent} (hs : Settled key pk h) : h ≠ [] := by
  obtain ⟨_, rfl | ⟨_, rfl⟩⟩ := hs <;> exact List.cons_ne_nil _ _

theorem Grows.refl (j : Journal) : j.Grows j := ⟨fun _ _ _ => id, id, id, fun _ _ _ _ => .inl rfl⟩

theorem Grows.trans (h : j.Grows j') (h' : j'.Grows j'') : j.Grows j'' where
  known key pk hpk hknown := h'.known key pk hpk (h.known key pk hpk hknown)
  whole := h'.whole ∘ h.whole
  told := h'.told ∘ h.told
  history htold key pk hpk := by
    rcases h'.history (h.told htold) key pk hpk with hsame' | ⟨hnil', hsettled'⟩
    · rw [hsame']
      exact h.history htold key pk hpk
    · rcases h.history htold key pk hpk with hsame | ⟨hnil, hsettled⟩
      · exact .inr ⟨hsame ▸ hnil', hsettled'⟩
      · exact absurd hnil' hsettled.ne_nil

/-- What only adds events that are about no row lets a journal grow well. -/
theorem grows_of_events {events : List ReadEvent} (hguard : j'.guard = j.guard)
    (hlog : j'.log.map JournalEntry.event = j.log.map JournalEntry.event ++ events)
    (habout : ∀ e ∈ events, e ≠ .cutOff ∧ ∀ key pk, e.about key pk = false) : j.Grows j' := by
  have hhistory : ∀ key pk, j'.history key pk = j.history key pk := by
    intro key pk
    have hnone : events.filter (ReadEvent.about key pk) = [] :=
      List.filter_eq_nil_iff.mpr fun e he => by simp [(habout e he).2 key pk]
    rw [history, hlog, List.filter_append, hnone, List.append_nil, history]
  constructor
  · intro key pk _ hknown
    rw [hguard]
    exact hknown
  · intro hwhole hmem
    rw [hlog, List.mem_append] at hmem
    rcases hmem with hmem | hmem
    · exact hwhole hmem
    · exact (habout _ hmem).1 rfl
  · intro htold key pk hpk hunknown
    rw [hguard] at hunknown
    rw [hhistory]
    exact htold key pk hpk hunknown
  · exact fun _ key pk _ => .inl (hhistory key pk)

theorem grows_enter (j : Journal) : j.Grows j.enter :=
  grows_of_events rfl (List.append_nil _).symm (by simp)

theorem grows_leave (j : Journal) (well : Bool) : j.Grows (j.leave well) :=
  grows_of_events rfl (events_tell j [.ended well]) (by simp [ReadEvent.about])

theorem grows_take (j : Journal) (gk : GuardKey) (pks : List Value) : j.Grows (j.take gk pks) := by
  refine grows_of_events rfl (events_tell j _) fun e he => ?_
  obtain ⟨pk, _, hpk⟩ := List.mem_filterMap.mp he
  obtain ⟨row, _, rfl⟩ := Option.map_eq_some_iff.mp hpk
  exact ⟨by simp, by simp [ReadEvent.about]⟩

/-- The plain keys of rows come once each. -/
def PlainOnce (rows : List (Value × Record)) : Prop :=
  ∀ pk : Value, pk.isPlain → (rows.map Prod.fst).count pk ≤ 1

theorem mem_keys_foldl_insertEntry (known : Keyed Record) (rows : List (Value × Record)) (pk : Value) :
    pk ∈ (rows.foldl (fun acc e => insertEntry acc e.1 e.2) known).map Prod.fst ↔
      pk ∈ known.map Prod.fst ∨ pk ∈ rows.map Prod.fst := by
  induction rows generalizing known with
  | nil => simp
  | cons e rest ih =>
      rw [List.foldl_cons, ih, mem_keys_insertEntry, List.map_cons, List.mem_cons, or_assoc, or_left_comm]

theorem contains_finish (hpk : pk.isPlain) : (j.finish gk rows).guard.contains key pk = true ↔
    j.guard.contains key pk = true ∨ key = gk ∧ pk ∈ rows.map Prod.fst := by
  have hrows : (j.finish gk rows).guard.rows key = if key = gk then
      rows.foldl (fun acc e => insertEntry acc e.1 e.2) (j.guard.rows gk) else j.guard.rows key :=
    Guard.rows_insert j.guard.families gk key _
  rw [Guard.contains_iff hpk, Guard.contains_iff hpk, hrows]
  split
  · rename_i h
    rw [h, mem_keys_foldl_insertEntry]
    simp
  · rename_i h
    simp [h]

theorem contains_note (hpk : pk.isPlain) : (j.note gk rows).guard.contains key pk = true ↔
    j.guard.contains key pk = true ∨ key = gk ∧ pk ∈ (newRows (j.guard.rows gk) rows).map Prod.fst := by
  have hrows : (j.note gk rows).guard.rows key =
      if key = gk then j.guard.rows gk ++ newRows (j.guard.rows gk) rows else j.guard.rows key :=
    rows_registerMissing j.guard gk key rows
  rw [Guard.contains_iff hpk, Guard.contains_iff hpk, hrows]
  split
  · rename_i h
    rw [h, List.map_append, List.mem_append]
    simp
  · rename_i h
    simp [h]

/-- Every row that is noted is known. -/
theorem contains_note_of_mem (hpk : pk.isPlain) (h : pk ∈ rows.map Prod.fst) :
    (j.note gk rows).guard.contains gk pk = true := by
  rw [contains_note hpk, Guard.contains_iff hpk]
  exact (mem_newRows h).imp_right fun hnew => ⟨rfl, hnew⟩

section Noting

variable (honce : PlainOnce rows)
  (hnew : ∀ pk : Value, pk.isPlain → pk ∈ rows.map Prod.fst → j.guard.contains gk pk = false)

include honce hnew

theorem filter_newRows_guard (hpk : pk.isPlain) (hmem : pk ∈ rows.map Prod.fst) :
    (newRows (j.guard.rows gk) rows).filter (·.1 == pk) = rows.filter (·.1 == pk) :=
  filter_newRows ((Guard.contains_eq_false_iff hpk).mp (hnew pk hpk hmem)) (honce pk hpk)

/-- A new row that is noted is fetched and noted. -/
theorem history_note_of_mem (htold : j.Told) (hpk : pk.isPlain) (hmem : pk ∈ rows.map Prod.fst) :
    ∃ row, (j.note gk rows).history gk pk = [.fetched gk pk, .noted gk pk row] := by
  rcases filter_key_cases (honce pk hpk) with ⟨hnone, _⟩ | ⟨_, row, hrow⟩
  · exact absurd hmem hnone
  · refine ⟨row, ?_⟩
    rw [history_note, htold gk pk hpk (hnew pk hpk hmem), if_pos rfl,
      filter_newRows_guard honce hnew hpk hmem, hrow]
    rfl

omit honce hnew in
theorem history_note_of_not_mem (h : key = gk → pk ∉ rows.map Prod.fst) :
    (j.note gk rows).history key pk = j.history key pk := by
  rw [history_note]
  split
  · rename_i hkey
    have hnone : ∀ l ⊆ rows, l.filter (·.1 == pk) = [] := by
      intro l hl
      refine List.filter_eq_nil_iff.mpr fun x hx hxpk => h hkey ?_
      exact beq_iff_eq.mp hxpk ▸ List.mem_map_of_mem (hl hx)
    rw [hnone rows (List.Subset.refl rows), hnone _ (newRows_subset _ _)]
    simp
  · exact List.append_nil _

/-- Noting new rows lets a journal grow well. -/
theorem grows_note : j.Grows (j.note gk rows) := by
  constructor
  · intro key pk hpk hknown
    exact (contains_note hpk).mpr (.inl hknown)
  · intro hwhole hmem
    rw [note, events_tell, List.mem_append, List.mem_append] at hmem
    rcases hmem with hmem | hmem | hmem
    · exact hwhole hmem
    · obtain ⟨_, _, he⟩ := List.mem_map.mp hmem
      cases he
    · obtain ⟨_, _, he⟩ := List.mem_map.mp hmem
      cases he
  · intro htold key pk hpk hunknown
    have hno := Bool.eq_false_iff.mp hunknown
    rw [history_note_of_not_mem fun hkey hmem => hno (by rw [hkey]; exact contains_note_of_mem hpk hmem)]
    rw [Ne, contains_note hpk, not_or] at hno
    exact htold key pk hpk (Bool.eq_false_iff.mpr hno.1)
  · intro htold key pk hpk
    by_cases hhere : key = gk ∧ pk ∈ rows.map Prod.fst
    · obtain ⟨rfl, hmem⟩ := hhere
      obtain ⟨row, hrow⟩ := history_note_of_mem honce hnew htold hpk hmem
      exact .inr ⟨htold key pk hpk (hnew pk hpk hmem), row, .inl hrow⟩
    · exact .inl (history_note_of_not_mem fun hkey hmem => hhere ⟨hkey, hmem⟩)

section Finishing

variable {finished : List (Value × Record)} (hgrows : (j.note gk rows).Grows j')
  (hfinished : PlainOnce finished)
  (hsub : ∀ pk : Value, pk.isPlain → pk ∈ finished.map Prod.fst → pk ∈ rows.map Prod.fst)

include hgrows hfinished hsub

/-- Of the rows that were noted before others were dealt with, finishing some settles their histories and
leaves all others. -/
theorem history_finish_cases (htold : j.Told) (key : GuardKey) (hpk : pk.isPlain) :
    (j'.finish gk finished).history key pk = j'.history key pk ∨
      (key = gk ∧ pk ∈ finished.map Prod.fst) ∧ j.history key pk = [] ∧
        Settled key pk ((j'.finish gk finished).history key pk) := by
  rw [history_finish]
  by_cases hkey : key = gk
  · subst hkey
    rw [if_pos rfl]
    rcases filter_key_cases (hfinished pk hpk) with ⟨_, hfilter⟩ | ⟨hmem, row', hfilter⟩
    · rw [hfilter]
      exact .inl (List.append_nil _)
    · -- The row was noted by this call, and no other call has touched it since.
      have hnoted := hsub pk hpk hmem
      obtain ⟨row, hrow⟩ := history_note_of_mem honce hnew htold hpk hnoted
      have htold' := (grows_note honce hnew).told htold
      have hkept : j'.history key pk = [.fetched key pk, .noted key pk row] := by
        rcases hgrows.history htold' key pk hpk with hsame | ⟨hnil, _⟩
        · exact hsame.trans hrow
        · rw [hrow] at hnil
          cases hnil
      refine .inr ⟨⟨rfl, hmem⟩, htold key pk hpk (hnew pk hpk hnoted), row, .inr ⟨row', ?_⟩⟩
      rw [hkept, hfilter]
      rfl
  · rw [if_neg hkey]
    exact .inl (List.append_nil _)

/-- After rows are noted and others dealt with, some of the noted rows are finished. -/
theorem grows_finish : j.Grows (j'.finish gk finished) := by
  have hall := (grows_note honce hnew).trans hgrows
  have hcases := fun (htold : j.Told) (key : GuardKey) (pk : Value) (hpk : pk.isPlain) =>
    history_finish_cases honce hnew hgrows hfinished hsub htold key hpk
  constructor
  · intro key pk hpk hknown
    exact (contains_finish hpk).mpr (.inl (hall.known key pk hpk hknown))
  · intro hwhole hmem
    rw [finish, events_tell, List.mem_append] at hmem
    rcases hmem with hmem | hmem
    · exact hall.whole hwhole hmem
    · obtain ⟨_, _, he⟩ := List.mem_map.mp hmem
      cases he
  · intro htold key pk hpk hunknown
    have hno := Bool.eq_false_iff.mp hunknown
    rw [Ne, contains_finish hpk, not_or] at hno
    rcases hcases htold key pk hpk with hsame | ⟨hmem, _⟩
    · rw [hsame]
      exact hall.told htold key pk hpk (Bool.eq_false_iff.mpr hno.1)
    · exact absurd hmem hno.2
  · intro htold key pk hpk
    rcases hcases htold key pk hpk with hsame | ⟨_, hnil, hsettled⟩
    · rw [hsame]
      exact hall.history htold key pk hpk
    · exact .inr ⟨hnil, hsettled⟩

end Finishing

end Noting

end Journal

end RecordMapper
