import RecordMapper.Proofs.Registry.Keys
import RecordMapper.Proofs.Store.Deletes
import RecordMapper.Proofs.Store.Inserts
import RecordMapper.Proofs.Read.Fetched
import RecordMapper.Proofs.Store.Updates
import RecordMapper.Save.Relation

/-!
# Cascades — which rows a delete cannot reach

A delete reaches the rows of its model and, along the columns that refer
to them, rows of other models (`Cascades`). The rows of a model that it
cannot reach stay (`keys_deleteRows`), and in a model that it reaches
only at its start those rows stay that were not selected. No other
statement removes a key at all.
-/

namespace RecordMapper.Store

variable {reg : Registry} {st st' : Store} {m m' related : Model} {pk k : Value}

/-! ## Reach -/

/-- Deleting rows of one model can delete rows of the family of another. -/
inductive Cascades (reg : Registry) : Model → Model → Prop
  | refl (m : Model) : Cascades reg m m
  | step {m m' : Model} {e : Model × Field} (refers : e ∈ referringColumns reg (family reg m))
    (rest : Cascades reg e.1 m') : Cascades reg m m'

/-- Deleting rows of a model leaves the rows of another one alone. -/
def Spares (reg : Registry) (m related : Model) : Prop :=
  ∀ m', Cascades reg m m' → related.name ∉ (family reg m').map Model.name

theorem Spares.step (h : Spares reg m related) {e : Model × Field}
    (he : e ∈ referringColumns reg (family reg m)) : Spares reg e.1 related :=
  fun m' hm' => h m' (.step he hm')

theorem table_eraseAll {levels : List Model} (h : related.name ∉ levels.map Model.name) (st : Store)
    (pks : List Value) : (eraseAll levels st pks).2.table related = st.table related := by
  induction pks generalizing st with
  | nil => rfl
  | cons pk rest ih =>
      rw [eraseAll]
      split
      · exact (ih _).trans (table_eraseFrom_ne st pk h)
      · exact ih st

/-- A delete leaves the table of a model that it cannot reach. -/
theorem table_deleteRows (h : Spares reg m related) (fuel : Nat) (st : Store) (pks : List Value) :
    (deleteRows reg fuel st m pks).table related = st.table related := by
  induction fuel generalizing m st pks with
  | zero => rfl
  | succ fuel ih =>
      have herased := table_eraseAll (h m (.refl m)) st pks
      rw [deleteRows]
      generalize eraseAll (family reg m) st pks = erased at herased ⊢
      obtain ⟨removed, st'⟩ := erased
      simp only [] at herased ⊢
      split
      · exact herased
      · refine List.foldlRecOn (motive := fun (after : Store) => after.table related = st.table related) _ _ herased
          fun after hafter e he => ?_
        split
        · exact hafter
        · exact (ih (h.step he) after _).trans hafter

/-! ## Rows that are not selected -/

/-- A plain key stays when another one is erased. -/
theorem mem_keys_eraseFrom (hk : k ∈ st.keys related) (hplain : k.isPlain) (hne : pk ≠ k)
    (levels : List Model) : k ∈ (eraseFrom levels st pk).keys related := by
  refine List.foldlRecOn (motive := fun (after : Store) => k ∈ after.keys related) levels _ hk
    fun after hafter level _ => ?_
  by_cases hname : related.name = level.name
  · rw [keys, table_congr_name hname] at hafter ⊢
    refine mem_keys_eraseRow.mpr ⟨hafter, fun hseat => ?_⟩
    rcases Keyed.seat_eq_or_sole (after.table level).rows pk with hs | ⟨_, heq⟩
    · exact hne (hs.symm.trans hseat.symm)
    · rw [← hseat] at heq
      exact hne ((Value.equiv_iff_of_isPlain hplain).mp heq)
  · rw [keys, table_eraseRow_ne _ _ hname]
    exact hafter

theorem mem_keys_eraseAll (hk : k ∈ st.keys related) (hplain : k.isPlain) (levels : List Model)
    {pks : List Value} (hnot : k ∉ pks) : k ∈ (eraseAll levels st pks).2.keys related := by
  induction pks generalizing st with
  | nil => exact hk
  | cons pk rest ih =>
      rw [List.mem_cons, not_or] at hnot
      rw [eraseAll]
      split
      · exact ih (mem_keys_eraseFrom hk hplain (Ne.symm hnot.1) levels) hnot.2
      · exact ih hk hnot.2

/-- A row that is not selected stays, if the rows that refer to those that go do not lead back. -/
theorem mem_keys_deleteRows (hk : k ∈ st.keys related) (hplain : k.isPlain)
    (hspares : ∀ e ∈ referringColumns reg (family reg related), Spares reg e.1 related) (fuel : Nat)
    {pks : List Value} (hnot : k ∉ pks) : k ∈ (deleteRows reg fuel st related pks).keys related := by
  cases fuel with
  | zero => exact hk
  | succ fuel =>
      have herased := mem_keys_eraseAll hk hplain (family reg related) hnot
      rw [deleteRows]
      generalize eraseAll (family reg related) st pks = erased at herased ⊢
      obtain ⟨removed, st'⟩ := erased
      simp only [] at herased ⊢
      split
      · exact herased
      · refine List.foldlRecOn (motive := fun (after : Store) => k ∈ after.keys related) _ _ herased
          fun after hafter e he => ?_
        split
        · exact hafter
        · rw [keys, table_deleteRows (hspares e he)]
          exact hafter

/-- Whether the path of a model's primary key leads to the key of a row itself. -/
def KeyIsColumn (reg : Registry) (m : Model) : Prop :=
  ∃ p, reg.resolvePath m m.pkName = .ok p ∧ p.before = [] ∧ p.last.field.name = m.pkName ∧
    p.last.field.isConcrete

theorem KeyIsColumn.isColumn (h : KeyIsColumn reg m) : IsColumn reg m m.pkName := h

theorem cell_pkName (st : Store) (m : Model) (pk : Value) : cell reg st m pk m.pkName = pk := by
  rw [cell, beq_self_eq_true, Bool.or_true, if_pos rfl]

/-- Rows that are listed are none of the others. -/
theorem not_mem_select_otherRows (hcolumn : KeyIsColumn reg related) (hplain : k.isPlain) {field : String}
    {owner : Value} {listed pks : List Value} (hk : k ∈ listed)
    (h : select reg st (RelationWrite.otherRows related field owner listed) = .ok pks) : k ∉ pks := by
  refine not_mem_select_exclude hcolumn.isColumn.reads ?_ h
  rw [cell_pkName]
  exact holds_oneOf_of_isPlain hk hplain

/-- The rows of some keys are those whose keys are equal to one of them. -/
theorem select_pkIn (h : KeyIsColumn reg m) (listed : List Value) :
    select reg st ((Queryset.all m).pkIn listed) = .ok ((st.keys m).filter (Lookup.oneOf listed).holds) := by
  refine select_keys (fun pk => ?_) listed
  obtain ⟨_, hp, hdirect, hname, hconcrete⟩ := h
  exact pathValues_key hp hdirect hname hconcrete

/-- A delete leaves the keys of a model that it cannot reach. -/
theorem keys_delete_of_spares {qs : Queryset} {n : Nat} (hspares : Spares reg qs.model related)
    (h : delete reg st qs = .ok (n, st')) : st'.keys related = st.keys related := by
  obtain ⟨pks, _, _, rfl⟩ := delete_eq_ok h
  rw [keys, keys, table_deleteRows hspares]

/-- Deleting the other rows leaves those that are listed. -/
theorem mem_keys_delete_otherRows (hcolumn : KeyIsColumn reg related) (hplain : k.isPlain)
    (hspares : ∀ e ∈ referringColumns reg (family reg related), Spares reg e.1 related) {field : String}
    {owner : Value} {listed : List Value} {n : Nat} (hlisted : k ∈ listed) (hk : k ∈ st.keys related)
    (h : delete reg st (RelationWrite.otherRows related field owner listed) = .ok (n, st')) :
    k ∈ st'.keys related := by
  obtain ⟨pks, hpks, _, rfl⟩ := delete_eq_ok h
  exact mem_keys_deleteRows hk hplain hspares _ (not_mem_select_otherRows hcolumn hplain hlisted hpks)

/-! ## Statements that remove no key -/

theorem keys_subset_setRow (st : Store) (m : Model) (pk : Value) (row : Record) (m' : Model) :
    st.keys m' ⊆ (st.setRow m pk row).keys m' := by
  intro k hk
  by_cases hname : m'.name = m.name
  · rw [keys, table_congr_name hname] at hk ⊢
    exact mem_keys_setRow.mpr (.inr hk)
  · rw [keys, table_setRow_ne _ _ _ hname]
    exact hk

theorem keys_subset_insert {now : Instant} {values : Record} (h : insert reg now st m values = .ok (pk, st'))
    (m' : Model) : st.keys m' ⊆ st'.keys m' := by
  obtain ⟨_, _, _, _, _, rfl, _⟩ := insert_eq_ok h
  have hnoted : st.keys m' = (noteKey st (reg.rootOf m) pk).keys m' := by
    rw [keys, keys, table_noteKey_rows]
  rw [hnoted]
  exact List.foldlRecOn (motive := fun (after : Store) => _ ⊆ after.keys m') _ _ (List.Subset.refl _)
    fun after hafter level _ => List.Subset.trans hafter (keys_subset_setRow after level pk _ m')

theorem keys_subset_insertChild {now : Instant} {values : Record}
    (h : insertChild reg now st m values = .ok st') (m' : Model) : st.keys m' ⊆ st'.keys m' := by
  obtain ⟨pk, _, _, _, _, _, rfl, _⟩ := insertChild_eq_ok h
  exact keys_subset_setRow st m pk _ m'

theorem keys_subset_setCell (st : Store) (m : Model) (pk : Value) (name : String) (v : Value) (m' : Model) :
    st.keys m' ⊆ (setCell reg st m pk name v).keys m' := by
  unfold setCell
  split
  · exact List.Subset.refl _
  · split
    · exact keys_subset_setRow ..
    · exact List.Subset.refl _

theorem keys_subset_update {qs : Queryset} {values : Record} {n : Nat}
    (h : update reg st qs values = .ok (n, st')) (m' : Model) : st.keys m' ⊆ st'.keys m' := by
  obtain ⟨pks, _, rfl, _⟩ := update_eq_ok h
  refine List.foldlRecOn (motive := fun (after : Store) => st.keys m' ⊆ after.keys m') pks _ (List.Subset.refl _)
    fun after hafter pk _ => ?_
  exact List.foldlRecOn (motive := fun (after : Store) => st.keys m' ⊆ after.keys m') values _ hafter
    fun after hafter e _ => List.Subset.trans hafter (keys_subset_setCell after qs.model pk e.1 e.2 m')

end RecordMapper.Store
