import RecordMapper.Proofs.Store.Constraints

/-!
# Inserts — new rows keep the constraints

An insert puts a row under a new key into every table of a lineage, an
insert below a parent into the model's own table. Both are taken apart
once (`insert_eq_ok`, `insertChild_eq_ok`) and are changes from there.

Keys stay inherited through an insert. Through an insert below a parent
they do so when the parent's table holds the very key that was given:
that it found a row under the key is not enough, since the key of a sole
row answers to what is equal to it.
-/

namespace RecordMapper.Store

variable {reg : Registry} {st st' : Store} {m m' : Model} {pk k : Value} {P : Value → Prop}
  {now : Instant} {values : Record}

/-! ## Inserts -/

/-- The store with a row put under one key into the tables of some models. -/
def setRows (row : Model → Record) (pk : Value) (st : Store) (levels : List Model) : Store :=
  levels.foldl (fun st level => st.setRow level pk (row level)) st

theorem table_setRows_ne (row : Model → Record) (pk : Value) (st : Store) {levels : List Model}
    (h : m.name ∉ levels.map Model.name) : (setRows row pk st levels).table m = st.table m := by
  induction levels generalizing st with
  | nil => rfl
  | cons level rest ih =>
      rw [List.map_cons, List.mem_cons, not_or] at h
      rw [setRows, List.foldl_cons]
      exact (ih _ h.2).trans (table_setRow_ne _ _ _ h.1)

theorem table_setRows_mem (row : Model → Record) (pk : Value) (st : Store) {levels : List Model}
    (hnd : (levels.map Model.name).Nodup) (h : m ∈ levels) :
    (setRows row pk st levels).table m =
      { st.table m with rows := insertEntry (st.table m).rows pk (row m) } := by
  induction levels generalizing st with
  | nil => cases h
  | cons level rest ih =>
      rw [List.map_cons, List.nodup_cons] at hnd
      rw [setRows, List.foldl_cons]
      rcases List.mem_cons.mp h with rfl | hrest
      · exact (table_setRows_ne row pk _ hnd.1).trans (table_setRow_self ..)
      · have hne : m.name ≠ level.name := fun he => hnd.1 (he ▸ List.mem_map_of_mem hrest)
        rw [← table_setRow_ne st pk (row level) hne]
        exact ih _ hnd.2 hrest

theorem table_noteKey_rows (st : Store) (root : Model) (pk : Value) (m : Model) :
    ((noteKey st root pk).table m).rows = (st.table m).rows := by
  unfold noteKey
  split
  · by_cases hm : m.name = root.name
    · rw [table, hm, ← table, table_setTable_self, table, table, hm]
    · rw [table_setTable_ne _ _ hm]
  · rfl

theorem table_noteKey_ne (st : Store) (pk : Value) {root m : Model} (h : m.name ≠ root.name) :
    (noteKey st root pk).table m = st.table m := by
  unfold noteKey
  split
  · exact table_setTable_ne _ _ h
  · rfl

/-- The counter does not go down, and a key that was noted is not above it. -/
theorem noteKey_lastId (st : Store) (root : Model) (pk : Value) :
    (st.table root).lastId.toInt ≤ ((noteKey st root pk).table root).lastId.toInt ∧
      ∀ n, pk = .int n → n.toInt ≤ ((noteKey st root pk).table root).lastId.toInt := by
  unfold noteKey
  split
  · rename_i n
    simp only [table_setTable_self, Value.int.injEq, forall_eq']
    split <;> omega
  · rename_i hint
    exact ⟨Int.le_refl _, fun n hn => absurd hn (hint n)⟩

/-- The counter moves to a noted key only. -/
theorem noteKey_lastId_cases (st : Store) (root : Model) (pk : Value) :
    ((noteKey st root pk).table root).lastId = (st.table root).lastId ∨
      pk = .int ((noteKey st root pk).table root).lastId := by
  unfold noteKey
  split
  · simp only [table_setTable_self, Value.int.injEq]
    split
    · exact .inr rfl
    · exact .inl rfl
  · exact .inl rfl

/-- An insert that succeeded put a new key with a checked row into every table of the lineage. -/
theorem insert_eq_ok (h : insert reg now st m values = .ok (pk, st')) :
    ∃ pkField, reg.field m m.pkName = .ok pkField ∧ pk = newKey reg now st m pkField values ∧
      pk.isNull = false ∧ st.contains (reg.rootOf m) pk = false ∧
      st' = setRows (fun level => localRow reg now level pk values) pk
        (noteKey st (reg.rootOf m) pk) (reg.lineage m).reverse ∧
      checkRow reg st' m pk = .ok () := by
  rw [insert] at h
  obtain ⟨_, _, h⟩ := Outcome.bind_eq_ok.mp h
  obtain ⟨pkField, hfield, h⟩ := Outcome.bind_eq_ok.mp h
  simp only [] at h
  split at h
  · cases h
  · rename_i hnull
    split at h
    · cases h
    · rename_i hcontains
      obtain ⟨_, hcheck, h⟩ := Outcome.bind_eq_ok.mp h
      cases h
      exact ⟨pkField, hfield, rfl, by simpa using hnull, by simpa using hcontains, rfl, hcheck⟩

/-- An insert under a new key does all but the check of the row. -/
theorem insert_eq_of_newKey {pkField : Field} (hcolumns : checkColumns reg m values = .ok ())
    (hfield : reg.field m m.pkName = .ok pkField) (hkey : newKey reg now st m pkField values = pk)
    (hnull : pk.isNull = false) (hnew : st.contains (reg.rootOf m) pk = false) :
    insert reg now st m values = (do
      let st' := setRows (fun level => localRow reg now level pk values) pk (noteKey st (reg.rootOf m) pk)
        (reg.lineage m).reverse
      checkRow reg st' m pk
      return (pk, st')) := by
  simp only [insert, hcolumns, hfield, hkey, hnull, hnew, Outcome.ok_bind, Bool.false_eq_true, if_false]
  rfl

/-- So it does under a new key that is given. -/
theorem insert_eq {pkField : Field} (hcolumns : checkColumns reg m values = .ok ())
    (hfield : reg.field m m.pkName = .ok pkField) (hgiven : givenKey? m values = some pk)
    (hnew : st.contains (reg.rootOf m) pk = false) :
    insert reg now st m values = (do
      let st' := setRows (fun level => localRow reg now level pk values) pk (noteKey st (reg.rootOf m) pk)
        (reg.lineage m).reverse
      checkRow reg st' m pk
      return (pk, st')) := by
  have hnull : pk.isNull = false := by simpa using (Option.filter_eq_some_iff.mp hgiven).2
  exact insert_eq_of_newKey hcolumns hfield (by rw [newKey, hgiven]) hnull hnew

/-- An insert under a key that the root's table holds is refused for that. -/
theorem insert_eq_error {pkField : Field} (hcolumns : checkColumns reg m values = .ok ())
    (hfield : reg.field m m.pkName = .ok pkField) (hgiven : givenKey? m values = some pk)
    (hstands : st.contains (reg.rootOf m) pk = true) :
    insert reg now st m values = .error (.uniqueViolated (reg.rootOf m).name m.pkName) := by
  have hnull : pk.isNull = false := by simpa using (Option.filter_eq_some_iff.mp hgiven).2
  simp only [insert, hcolumns, hfield, newKey, hgiven, hnull, hstands, Outcome.ok_bind, Bool.false_eq_true, if_false,
    if_true]
  rfl

/-- What an insert leaves in the tables: those of the lineage gained the key, all others stand as they
were. -/
theorem insert_rows (hr : reg.Rooted) (hm : m ∈ reg.models)
    (h : insert reg now st m values = .ok (pk, st')) (hm' : m' ∈ reg.models) :
    (m' ∈ reg.lineage m ∧ ∃ row, (st'.table m').rows = ((st.setRow m' pk row).table m').rows) ∨
      (m' ∉ reg.lineage m ∧ st'.table m' = st.table m') := by
  obtain ⟨_, _, _, _, _, rfl, _⟩ := insert_eq_ok h
  by_cases hl : m' ∈ reg.lineage m
  · refine .inl ⟨hl, localRow reg now m' pk values, ?_⟩
    have hnd : ((reg.lineage m).reverse.map Model.name).Nodup := by
      rw [List.map_reverse, List.nodup_reverse]
      exact hr.nodup_lineage hm
    rw [table_setRows_mem _ _ _ hnd (List.mem_reverse.mpr hl), table_setRow_self]
    simp only [table_noteKey_rows]
  · refine .inr ⟨hl, ?_⟩
    have hne : m'.name ∉ (reg.lineage m).reverse.map Model.name := fun hmem => by
      obtain ⟨level, hlevel, hn⟩ := List.mem_map.mp hmem
      rw [List.mem_reverse] at hlevel
      exact hl (hr.eq_of_name (hr.mem_models hm hlevel) hm' hn ▸ hlevel)
    have hroot : m'.name ≠ (reg.rootOf m).name := fun hn =>
      hl (hr.eq_of_name (hr.rootOf_mem_models hm) hm' hn.symm ▸ reg.rootOf_mem_lineage m)
    rw [table_setRows_ne _ _ _ hne, table_noteKey_ne _ _ hroot]

theorem mem_keys_insert (hr : reg.Rooted) (hm : m ∈ reg.models)
    (h : insert reg now st m values = .ok (pk, st')) (hl : m' ∈ reg.lineage m) : pk ∈ st'.keys m' := by
  rcases insert_rows hr hm h (hr.mem_models hm hl) with ⟨_, row, hrows⟩ | ⟨hout, _⟩
  · rw [keys_congr hrows]
    exact mem_keys_setRow.mpr (.inl rfl)
  · exact absurd hl hout

/-- A row after an insert is one from before or the new one. -/
theorem insert_row_cases (hr : reg.Rooted) (hm : m ∈ reg.models)
    (h : insert reg now st m values = .ok (pk, st')) (hm' : m' ∈ reg.models) (hk : k ∈ st'.keys m') :
    (k ∈ st.keys m' ∧ st'.row? m' k = st.row? m' k) ∨ (k = pk ∧ m' ∈ reg.lineage m) := by
  rcases insert_rows hr hm h hm' with ⟨hl, row, hrows⟩ | ⟨_, htable⟩
  · rw [keys_congr hrows] at hk
    by_cases hkp : k = pk
    · exact .inr ⟨hkp, hl⟩
    · have hold := (mem_keys_setRow.mp hk).resolve_left hkp
      exact .inl ⟨hold, (row?_congr hrows k).trans (row?_setRow_ne row hold hkp)⟩
  · have hrows : (st'.table m').rows = (st.table m').rows := by rw [htable]
    exact .inl ⟨keys_congr hrows ▸ hk, row?_congr hrows k⟩

theorem insert_change (hr : reg.Rooted) (hm : m ∈ reg.models) (hk : WellKept reg P st) (hP : P pk)
    (h : insert reg now st m values = .ok (pk, st')) : Change reg P st st' where
  nodup m' hm' := by
    rcases insert_rows hr hm h hm' with ⟨_, row, hrows⟩ | ⟨_, htable⟩
    · rw [keys_congr hrows]
      exact nodup_keys_setRow pk row (hk.nodup m' hm')
    · rw [keys, htable]
      exact hk.nodup m' hm'
  rows m' hm' k hk' := by
    rcases insert_row_cases hr hm h hm' hk' with hold | ⟨rfl, hl⟩
    · exact .inl hold
    · obtain ⟨_, _, _, _, _, _, hcheck⟩ := insert_eq_ok h
      exact .inr ⟨hP, passes_of_checkRow hcheck hl⟩
  counted m' hm' hp n hn := by
    rcases insert_rows hr hm h hm' with ⟨hl, row, hrows⟩ | ⟨_, htable⟩
    · rw [keys_congr hrows] at hn
      -- Only the root counts keys, and it notes the new one.
      obtain rfl := hr.rootOf_of_parent hm hl hp
      obtain ⟨_, _, _, _, _, rfl, _⟩ := insert_eq_ok h
      have hnd : ((reg.lineage m).reverse.map Model.name).Nodup := by
        rw [List.map_reverse, List.nodup_reverse]
        exact hr.nodup_lineage hm
      rw [table_setRows_mem _ _ _ hnd (List.mem_reverse.mpr hl)]
      obtain ⟨hup, hnoted⟩ := noteKey_lastId st (reg.rootOf m) pk
      rcases mem_keys_setRow.mp hn with hnew | hold
      · exact hnoted n hnew.symm
      · exact Int.le_trans (hk.counted _ hm' hp n hold) hup
    · rw [htable]
      exact hk.counted m' hm' hp n (by rwa [keys, htable] at hn)

theorem insert_inherits (hr : reg.Rooted) (hm : m ∈ reg.models) (hi : Inherits reg st)
    (h : insert reg now st m values = .ok (pk, st')) : Inherits reg st' := by
  have hgrow : ∀ m' ∈ reg.models, st.keys m' ⊆ st'.keys m' := by
    intro m' hm' k hk
    rcases insert_rows hr hm h hm' with ⟨_, row, hrows⟩ | ⟨_, htable⟩
    · rw [keys_congr hrows]
      exact mem_keys_setRow.mpr (.inr hk)
    · rwa [keys, htable]
  intro m' hm' upper hu k hk
  have hum := hr.mem_models hm' hu
  rcases insert_rows hr hm h hm' with ⟨hl, row, hrows⟩ | ⟨_, htable⟩
  · rw [keys_congr hrows] at hk
    rcases mem_keys_setRow.mp hk with rfl | hold
    · -- The new key goes into every table of the lineage.
      exact mem_keys_insert hr hm h (hr.lineage_trans hm hl hu)
    · exact hgrow upper hum (hi m' hm' upper hu hold)
  · rw [keys, htable] at hk
    exact hgrow upper hum (hi m' hm' upper hu hk)

/-! ## Inserts below a parent -/

/-- An insert below a parent that succeeded found the parent's row and put a checked row into the
model's own table. -/
theorem insertChild_eq_ok (h : insertChild reg now st m values = .ok st') :
    ∃ pk parent, givenKey? m values = some pk ∧ reg.parent? m = some parent ∧
      st.contains parent pk = true ∧ st.contains m pk = false ∧
      st' = st.setRow m pk (localRow reg now m pk values) ∧ checkRow reg st' m pk = .ok () := by
  rw [insertChild] at h
  obtain ⟨_, _, h⟩ := Outcome.bind_eq_ok.mp h
  split at h
  · cases h
  · cases h
  · rename_i pk parent hpk hparent
    cases habove : st.contains parent pk with
    | false =>
        rw [habove] at h
        cases h
    | true =>
        cases hnew : st.contains m pk with
        | true =>
            rw [habove, hnew] at h
            cases h
        | false =>
            rw [habove, hnew] at h
            obtain ⟨_, hcheck, h⟩ := Outcome.bind_eq_ok.mp h
            cases h
            exact ⟨pk, parent, hpk, hparent, habove, hnew, rfl, hcheck⟩

/-- An insert below a parent's row, where the model's own table has none, does all but the check of the row. -/
theorem insertChild_eq {parent : Model} (now : Instant) (hcolumns : checkColumns reg m values = .ok ())
    (hgiven : givenKey? m values = some pk) (hparent : reg.parent? m = some parent)
    (habove : st.contains parent pk = true) (hnew : st.contains m pk = false) :
    insertChild reg now st m values = (do
      let st' := st.setRow m pk (localRow reg now m pk values)
      checkRow reg st' m pk
      return st') := by
  simp only [insertChild, hcolumns, hgiven, hparent, habove, hnew, Outcome.ok_bind]
  rfl

/-- The parent's table answered to the key that was given. -/
theorem contains_of_insertChild {parent : Model} (hpk : givenKey? m values = some pk)
    (hparent : reg.parent? m = some parent) (h : insertChild reg now st m values = .ok st') :
    st.contains parent pk = true ∧ st' = st.setRow m pk (localRow reg now m pk values) := by
  obtain ⟨pk', parent', hpk', hparent', habove, _, hst, _⟩ := insertChild_eq_ok h
  obtain rfl : pk = pk' := Option.some.inj (hpk.symm.trans hpk')
  obtain rfl : parent = parent' := Option.some.inj (hparent.symm.trans hparent')
  exact ⟨habove, hst⟩

theorem insertChild_change (hr : reg.Rooted) (hm : m ∈ reg.models) (hk : WellKept reg P st)
    (hP : ∀ pk, givenKey? m values = some pk → P pk)
    (h : insertChild reg now st m values = .ok st') : Change reg P st st' := by
  obtain ⟨pk, parent, hpk, hparent, _, _, rfl, hcheck⟩ := insertChild_eq_ok h
  generalize localRow reg now m pk values = row at hcheck ⊢
  constructor
  case nodup =>
    intro m' hm'
    by_cases he : m' = m
    · subst he
      exact nodup_keys_setRow pk row (hk.nodup m' hm')
    · rw [keys, table_setRow_of_ne hr hm hm' he]
      exact hk.nodup m' hm'
  case rows =>
    intro m' hm' k hk'
    rcases setRow_row_cases hr hm hm' hk' with hold | ⟨rfl, rfl⟩
    · exact .inl hold
    · exact .inr ⟨hP k hpk, passes_of_checkRow hcheck (reg.self_mem_lineage m')⟩
  case counted =>
    intro m' hm' hp n hn
    -- A model that counts its keys has no parent, so it is not the one inserted into.
    have he : m' ≠ m := by
      rintro rfl
      rw [Registry.parent?_eq_none_of_parent hp] at hparent
      cases hparent
    rw [keys, table_setRow_of_ne hr hm hm' he] at hn
    rw [table_setRow_of_ne hr hm hm' he]
    exact hk.counted m' hm' hp n hn

/-- Keys stay inherited when the parent's table holds the very key that was given. -/
theorem insertChild_inherits (hr : reg.Rooted) (hm : m ∈ reg.models) (hi : Inherits reg st)
    (habove : ∀ pk parent, givenKey? m values = some pk → reg.parent? m = some parent →
      pk ∈ st.keys parent)
    (h : insertChild reg now st m values = .ok st') : Inherits reg st' := by
  obtain ⟨pk, parent, hpk, hparent, _, _, rfl, _⟩ := insertChild_eq_ok h
  have hpm := (Registry.parent?_eq_some hparent).2
  have hgrow : ∀ m', st.keys m' ⊆ (st.setRow m pk (localRow reg now m pk values)).keys m' := by
    intro m' k hk
    by_cases hn : m'.name = m.name
    · have htable : ∀ st : Store, st.keys m' = st.keys m := fun st => by rw [keys, table, hn]; rfl
      rw [htable] at hk ⊢
      exact mem_keys_setRow.mpr (.inr hk)
    · rwa [keys, table_setRow_ne _ _ _ hn]
  intro m' hm' upper hu k hk
  by_cases he : m' = m
  · subst he
    rcases mem_keys_setRow.mp hk with rfl | hold
    · rw [hr.lineage_of_parent hm hparent] at hu
      rcases List.mem_cons.mp hu with rfl | hup
      · exact hk
      · exact hgrow upper (hi parent hpm upper hup (habove k parent hpk hparent))
    · exact hgrow upper (hi m' hm upper hu hold)
  · rw [keys, table_setRow_of_ne hr hm hm' he] at hk
    exact hgrow upper (hi m' hm' upper hu hk)

end RecordMapper.Store
