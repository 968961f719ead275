import RecordMapper.Proofs.Store.Cells
import RecordMapper.Proofs.Store.Refusals

/-!
# Carried values — writing what stands in a row already

A row `Carries` a value when it has an entry for it; a column that reads
null may have none. What an update has written is carried, and goes on to
be through updates of other columns. An update with values that its rows
carry leaves the store as it is (`update_of_carries`).
-/

namespace RecordMapper.Store

variable {reg : Registry} {st st' : Store} {m a : Model} {pk k v : Value} {name : String} {e : String × Value}
  {values : Record} {pks : List Value}

theorem setTable_table (h : k ∈ st.keys m) : st.setTable m (st.table m) = st := by
  obtain ⟨tables⟩ := st
  have hlookup : tables.lookup m.name = some (Store.table ⟨tables⟩ m) := by
    cases ht : tables.lookup m.name with
    | none =>
        rw [keys, table, ht] at h
        cases h
    | some t => rw [table, ht, Option.getD_some]
  exact congrArg Store.mk (insertEntry_of_lookup hlookup)

/-- Writing the row that stands changes nothing. -/
theorem setRow_of_row? {row : Record} (hk : k ∈ st.keys m) (h : st.row? m k = some row) : st.setRow m k row = st := by
  rw [row?_of_mem hk] at h
  rw [setRow, insertEntry_of_lookup h]
  exact setTable_table hk

/-- The row of a key in a model's own table has an entry. -/
structure Carries (m : Model) (k : Value) (e : String × Value) (st : Store) : Prop where
  key : k ∈ st.keys m
  entry : (st.row? m k).bind (List.lookup e.1) = some e.2

theorem Carries.of_row? (h : Carries m k e st) (hkeys : st.keys m ⊆ st'.keys m) (hrow : st'.row? m k = st.row? m k) :
    Carries m k e st' :=
  ⟨hkeys h.key, hrow ▸ h.entry⟩

theorem Carries.exists_row (h : Carries m k e st) : ∃ row, st.row? m k = some row ∧ row.lookup e.1 = some e.2 :=
  Option.bind_eq_some_iff.mp h.entry

/-- Writing what a row carries changes nothing. -/
theorem Carries.setCell_eq (h : Carries a k e st) (howner : columnOwner? reg m e.1 = some a) :
    setCell reg st m k e.1 e.2 = st := by
  obtain ⟨row, hrow, hentry⟩ := h.exists_row
  simp only [setCell, howner, hrow, Keyed.seat_of_mem h.key, Record.insert, insertEntry_of_lookup hentry]
  exact setRow_of_row? h.key hrow

theorem keys_subset_overwrite (m : Model) (values : Record) (pks : List Value) (st : Store) :
    st.keys a ⊆ (overwrite reg m values pks st).keys a := by
  refine List.foldlRecOn (motive := fun after : Store => st.keys a ⊆ after.keys a) pks _ (List.Subset.refl _)
    fun _ h pk _ => ?_
  exact List.foldlRecOn (motive := fun after : Store => st.keys a ⊆ after.keys a) values _ h fun _ h e _ =>
    List.Subset.trans h (keys_subset_setCell _ _ _ _ _ _)

/-- A column that a row carries holds the value. -/
theorem Carries.cell_eq {f : Field} {v : Value} (hr : reg.Rooted) (ha : a ∈ reg.models) (hf : f ∈ a.own)
    (hc : f.isConcrete) (hne : f.name ≠ "pk" ∧ f.name ≠ a.pkName) (h : Carries a k (f.name, v) st) :
    cell reg st a k f.name = v := by
  obtain ⟨row, hrow, hentry⟩ := h.exists_row
  rw [cell_of_own hr ha hf hc, if_neg (by simp [hne]), hrow, Option.map_some, Record.getD_eq, hentry]
  rfl

section Writes

variable (hr : reg.Rooted) (hm : m ∈ reg.models) (ha : a ∈ reg.models)
include hr hm ha

/-- Writing a column leaves every row, but for that of the key in the table that holds the column. -/
theorem row?_setCell (hk : k ∈ st.keys a) (pk v : Value) :
    (setCell reg st m pk name v).row? a k = st.row? a k ∨ columnOwner? reg m name = some a ∧
      ∃ row, st.row? a k = some row ∧ (setCell reg st m pk name v).row? a k = some (row.insert name v) := by
  unfold setCell
  split
  · exact .inl rfl
  · rename_i owner howner
    split
    · rename_i row hrow
      by_cases he : a = owner
      · subst he
        by_cases hks : k = Keyed.seat (st.table a).rows pk
        · refine .inr ⟨howner, row, ?_, ?_⟩
          · rw [hks] at hk ⊢
            exact (row?_seat hk).trans hrow
          · rw [← hks, row?_of_mem (mem_keys_setRow.mpr (.inl rfl)), table_setRow_self]
            exact lookup_insertEntry_self ..
        · exact .inl (row?_setRow_ne _ hk hks)
      · have hown := hr.mem_models hm (columnOwner?_mem howner)
        exact .inl (row?_congr (congrArg Table.rows (table_setRow_of_ne hr hown ha he ..)) k)
    · exact .inl rfl

/-- What a row carries stays where nothing else is written for it. -/
theorem Carries.setCell (h : Carries a k e st) (hsame : columnOwner? reg m name = some a → name = e.1 → v = e.2)
    (pk : Value) : Carries a k e (setCell reg st m pk name v) := by
  have hkeys : st.keys a ⊆ (Store.setCell reg st m pk name v).keys a := keys_subset_setCell ..
  rcases row?_setCell hr hm ha h.key pk v with hrow | ⟨howner, row, hold, hnew⟩
  · exact h.of_row? hkeys hrow
  · refine ⟨hkeys h.key, ?_⟩
    have hentry := h.entry
    rw [hold, Option.bind_some] at hentry
    rw [hnew, Option.bind_some]
    by_cases hname : name = e.1
    · rw [hname, Record.lookup_insert_self, hsame howner hname]
    · rw [Record.lookup_insert_ne row (Ne.symm hname), hentry]

theorem Carries.overwrite (h : Carries a k e st)
    (hsame : ∀ e' ∈ values, columnOwner? reg m e'.1 = some a → e'.1 = e.1 → e'.2 = e.2) (pks : List Value) :
    Carries a k e (overwrite reg m values pks st) := by
  refine List.foldlRecOn pks _ h fun _ h pk _ => ?_
  exact List.foldlRecOn values _ h fun _ h e' he' => h.setCell hr hm ha (hsame e' he') pk

/-- A row carries what it was updated with. -/
theorem carries_overwritten (hk : k ∈ st.keys a) (hpks : k ∈ pks) (he : e ∈ values)
    (howner : columnOwner? reg m e.1 = some a) (hsame : ∀ e' ∈ values, e'.1 = e.1 → e'.2 = e.2) :
    Carries a k e (overwrite reg m values pks st) := by
  obtain ⟨before, after, rfl⟩ := List.append_of_mem hpks
  have hsplit : Store.overwrite reg m values (before ++ k :: after) st = Store.overwrite reg m values after
      (values.foldl (fun st e => Store.setCell reg st m k e.1 e.2) (Store.overwrite reg m values before st)) := by
    simp only [Store.overwrite, List.foldl_append, List.foldl_cons]
  have hready : k ∈ (Store.overwrite reg m values before st).keys a := keys_subset_overwrite _ _ _ _ hk
  rw [hsplit]
  generalize Store.overwrite reg m values before st = st at hready
  obtain ⟨first, rest, rfl⟩ := List.append_of_mem he
  have hkeys : k ∈ (first.foldl (fun st e => Store.setCell reg st m k e.1 e.2) st).keys a :=
    List.foldlRecOn (motive := fun st : Store => k ∈ st.keys a) first _ hready fun _ h e' _ =>
      keys_subset_setCell _ _ _ _ _ _ h
  have hput : Carries a k e (Store.setCell reg (first.foldl (fun st e => Store.setCell reg st m k e.1 e.2) st) m k
      e.1 e.2) := by
    generalize first.foldl (fun st e => Store.setCell reg st m k e.1 e.2) st = st at hkeys
    obtain ⟨row, hrow⟩ := Option.isSome_iff_exists.mp (Keyed.get?_isSome_of_mem hkeys)
    have hset : Store.setCell reg st m k e.1 e.2 = st.setRow a k (row.insert e.1 e.2) := by
      simp only [Store.setCell, howner, row?, hrow, Keyed.seat_of_mem hkeys]
    rw [hset]
    refine ⟨mem_keys_setRow.mpr (.inl rfl), ?_⟩
    rw [row?_of_mem (mem_keys_setRow.mpr (.inl rfl)), table_setRow_self, lookup_insertEntry_self, Option.bind_some,
      Record.lookup_insert_self]
  -- Once the value is written, whatever else is written leaves it or writes it again.
  refine Carries.overwrite hr hm ha ?_ (fun e' he' _ => hsame e' he') after
  rw [List.foldl_append, List.foldl_cons]
  refine List.foldlRecOn rest _ hput fun _ h e' he' => h.setCell hr hm ha (fun _ => hsame e' ?_) k
  exact List.mem_append_right _ (List.mem_cons_of_mem _ he')

end Writes

/-- Writing what the rows carry changes nothing. -/
theorem overwrite_of_carries (h : ∀ k ∈ pks, ∀ e ∈ values, ∃ a, columnOwner? reg m e.1 = some a ∧ Carries a k e st) :
    overwrite reg m values pks st = st := by
  refine List.foldlRecOn (motive := (· = st)) pks _ rfl fun _ hst k hk => ?_
  subst hst
  refine List.foldlRecOn (motive := (· = _)) values _ rfl fun _ hst e he => ?_
  subst hst
  obtain ⟨a, howner, hcarries⟩ := h k hk e he
  exact hcarries.setCell_eq howner

/-- Columns that can be updated: all are columns of the model, and its key is none of them. -/
structure Updatable (reg : Registry) (m : Model) (values : Record) : Prop where
  columns : checkColumns reg m values = .ok ()
  keyless : (values.has "pk" || values.has m.pkName) = false

theorem updatable_of_update {qs : Queryset} {n : Nat} (h : update reg st qs values = .ok (n, st')) :
    Updatable reg qs.model values := by
  rw [update] at h
  obtain ⟨_, hcolumns, h⟩ := Outcome.bind_eq_ok.mp h
  refine ⟨hcolumns, Bool.eq_false_iff.mpr fun hkey => ?_⟩
  rw [if_pos hkey] at h
  cases h

theorem Updatable.ne_key {e : String × Value} (h : Updatable reg m values) (he : e ∈ values) :
    e.1 ≠ "pk" ∧ e.1 ≠ m.pkName := by
  have hkeyless := h.keyless
  simp only [Record.has, Bool.or_eq_false_iff, List.any_eq_false, beq_iff_eq] at hkeyless
  exact ⟨hkeyless.1 e he, hkeyless.2 e he⟩

theorem updatable_of_columns (h : ∀ e ∈ values, (e.1 ≠ "pk" ∧ e.1 ≠ m.pkName) ∧ NamesColumn reg m e.1) :
    Updatable reg m values := by
  have hnone : ∀ name, (∀ e ∈ values, e.1 ≠ name) → values.has name = false := fun name hne =>
    List.any_eq_false.mpr fun e he => by simpa using hne e he
  refine ⟨?_, by rw [hnone _ fun e he => (h e he).1.1, hnone _ fun e he => (h e he).1.2]; rfl⟩
  rw [checkColumns_of_columns fun e he _ => (h e he).2, if_neg]
  intro hmem
  obtain ⟨e, he, hname⟩ := List.mem_map.mp hmem
  exact (h e he).1.2 hname

/-- An update with columns that can be updated overwrites the selected rows, and then checks them. -/
theorem update_eq {qs : Queryset} (hvalues : Updatable reg qs.model values) (hselect : select reg st qs = .ok pks) :
    update reg st qs values = (do
      pks.forM (checkRow reg (overwrite reg qs.model values pks st) qs.model)
      return (pks.length, overwrite reg qs.model values pks st)) := by
  simp only [update, hvalues.columns, hvalues.keyless, Outcome.ok_bind, hselect, overwrite]
  rfl

/-- An update with what its rows carry, and which keeps the rules, leaves the store. -/
theorem update_of_carries {qs : Queryset} (hvalues : Updatable reg qs.model values)
    (hselect : select reg st qs = .ok pks)
    (hcarries : ∀ k ∈ pks, ∀ e ∈ values, ∃ a, columnOwner? reg qs.model e.1 = some a ∧ Carries a k e st)
    (hchecks : ∀ k ∈ pks, checkRow reg st qs.model k = .ok ()) : update reg st qs values = .ok (pks.length, st) := by
  rw [update_eq hvalues hselect, overwrite_of_carries hcarries, Outcome.forM_eq_ok.mpr hchecks]
  rfl

end RecordMapper.Store
