import RecordMapper.Store.Delete
import RecordMapper.Proofs.Store.Constraints
import RecordMapper.Proofs.Store.Selection

/-!
# Deletes — removing rows and those that refer to them

A delete is made of one step, erasing a key from all tables of a family,
taken over and over along the references. Whatever that step keeps, a
delete keeps (`deleteRows_keeps`): the store only shrinks (`Shrinks`),
and keys stay inherited because a family is closed under ancestors.
-/

namespace RecordMapper.Store

variable {reg : Registry} {st st' : Store} {m m' : Model} {pk k : Value} {P : Value → Prop}

/-! ## What a step keeps -/

/-- What erasing a key from the tables of a family keeps, for all models at least of some kind, removing rows of
such a model along references keeps. -/
theorem deleteRows_keeps {Q : Store → Prop} {M : Model → Prop} (hmodels : ∀ m ∈ reg.models, M m)
    (hstep : ∀ m, M m → ∀ pk st, Q st → Q (eraseFrom (family reg m) st pk)) (fuel : Nat)
    (hm : M m) (h : Q st) (pks : List Value) : Q (deleteRows reg fuel st m pks) := by
  induction fuel generalizing st m pks with
  | zero => exact h
  | succ fuel ih =>
      -- First the rows themselves, then those that refer to them, column by column.
      have herase : ∀ pks st, Q st → Q (eraseAll (family reg m) st pks).2 := by
        intro pks
        induction pks with
        | nil => exact fun _ h => h
        | cons pk rest ih =>
            intro st h
            rw [eraseAll]
            split
            · exact ih _ (hstep m hm pk st h)
            · exact ih _ h
      have hall := herase pks st h
      rw [deleteRows]
      generalize eraseAll (family reg m) st pks = erased at hall ⊢
      obtain ⟨removed, st'⟩ := erased
      simp only [] at hall ⊢
      split
      · exact hall
      · refine List.foldlRecOn _ _ hall fun st h column hcolumn => ?_
        obtain ⟨owner, howner, hmem⟩ := List.mem_flatMap.mp hcolumn
        obtain ⟨f, _, rfl⟩ := List.mem_map.mp hmem
        simp only []
        split
        · exact h
        · exact ih (hmodels owner howner) h _

/-! ## Stores shrink -/

/-- A store with fewer rows than another, all as they stand there. -/
structure Shrinks (before st : Store) : Prop where
  keys : ∀ m, (st.keys m).Sublist (before.keys m)
  row : ∀ m, ∀ k ∈ st.keys m, st.row? m k = before.row? m k
  lastId : ∀ m, (st.table m).lastId = (before.table m).lastId

theorem Shrinks.refl (st : Store) : Shrinks st st where
  keys _ := .refl _
  row _ _ _ := rfl
  lastId _ := rfl

theorem Shrinks.trans {before middle st : Store} (h : Shrinks before middle) (h' : Shrinks middle st) :
    Shrinks before st where
  keys m := (h'.keys m).trans (h.keys m)
  row m k hk := (h'.row m k hk).trans (h.row m k ((h'.keys m).subset hk))
  lastId m := (h'.lastId m).trans (h.lastId m)

theorem table_congr_name (h : m'.name = m.name) (st : Store) : st.table m' = st.table m := by
  rw [table, h, table]

theorem eraseRow_shrinks (st : Store) (m : Model) (pk : Value) : Shrinks st (st.eraseRow m pk) := by
  constructor
  case keys =>
    intro m'
    by_cases hn : m'.name = m.name
    · rw [keys, keys, table_congr_name hn, table_congr_name hn, table_eraseRow_self, Keyed.keys_erase]
      exact List.filter_sublist
    · rw [keys, table_eraseRow_ne _ _ hn]
      exact .refl _
  case row =>
    intro m' k hk
    by_cases hn : m'.name = m.name
    · rw [Store.keys, table_congr_name hn] at hk
      rw [row?, row?, table_congr_name hn, table_congr_name hn]
      exact row?_eraseRow hk
    · exact row?_congr (congrArg Table.rows (table_eraseRow_ne _ _ hn)) k
  case lastId =>
    intro m'
    by_cases hn : m'.name = m.name
    · rw [table_congr_name hn, table_congr_name hn, table_eraseRow_self]
    · rw [table_eraseRow_ne _ _ hn]

theorem eraseFrom_shrinks (levels : List Model) (st : Store) (pk : Value) :
    Shrinks st (eraseFrom levels st pk) :=
  List.foldlRecOn levels _ (.refl st) fun _ h m _ => h.trans (eraseRow_shrinks _ m pk)

theorem Shrinks.change (h : Shrinks st st') (hk : WellKept reg P st) : Change reg P st st' where
  nodup m hm := (hk.nodup m hm).sublist (h.keys m)
  rows m _ k hk' := .inl ⟨(h.keys m).subset hk', h.row m k hk'⟩
  counted m hm hp n hn := by
    rw [h.lastId m]
    exact hk.counted m hm hp n ((h.keys m).subset hn)

/-! ## Families are closed under ancestors -/

theorem mem_family (hr : reg.Rooted) (hm : m ∈ reg.models) (hm' : m' ∈ reg.models) :
    m' ∈ family reg m ↔ reg.rootOf m' = reg.rootOf m := by
  rw [family, List.mem_filter, Registry.isSubModel, List.any_eq_true]
  constructor
  · rintro ⟨_, upper, hu, hn⟩
    have hu' : upper = reg.rootOf m :=
      hr.eq_of_name (hr.mem_models hm' hu) (hr.rootOf_mem_models hm) (by simpa using hn)
    exact hr.rootOf_of_parent hm' (hu' ▸ hu) (hr.rootOf_parent hm)
  · intro he
    exact ⟨hm', reg.rootOf m', reg.rootOf_mem_lineage m', by simp [he]⟩

theorem mem_family_of_lineage (hr : reg.Rooted) (hm : m ∈ reg.models) (hm' : m' ∈ reg.models)
    {upper : Model} (hu : upper ∈ reg.lineage m') : upper ∈ family reg m ↔ m' ∈ family reg m := by
  rw [mem_family hr hm (hr.mem_models hm' hu), mem_family hr hm hm', hr.rootOf_of_mem_lineage hm' hu]

theorem table_eraseFrom_ne {levels : List Model} (st : Store) (pk : Value)
    (h : m.name ∉ levels.map Model.name) : (eraseFrom levels st pk).table m = st.table m := by
  induction levels generalizing st with
  | nil => rfl
  | cons level rest ih =>
      rw [List.map_cons, List.mem_cons, not_or] at h
      rw [eraseFrom, List.foldl_cons]
      exact (ih _ h.2).trans (table_eraseRow_ne _ _ h.1)

theorem table_eraseFrom_mem {levels : List Model} (st : Store) (pk : Value)
    (hnd : (levels.map Model.name).Nodup) (h : m ∈ levels) :
    (eraseFrom levels st pk).table m =
      { st.table m with rows := Keyed.erase (st.table m).rows pk } := by
  induction levels generalizing st with
  | nil => cases h
  | cons level rest ih =>
      rw [List.map_cons, List.nodup_cons] at hnd
      rw [eraseFrom, List.foldl_cons]
      rcases List.mem_cons.mp h with rfl | hrest
      · exact (table_eraseFrom_ne _ pk hnd.1).trans (table_eraseRow_self ..)
      · have hne : m.name ≠ level.name := fun he => hnd.1 (he ▸ List.mem_map_of_mem hrest)
        rw [← table_eraseRow_ne st pk hne]
        exact ih _ hnd.2 hrest

/-- Erasing a key from a whole family keeps keys inherited, also where a sole key answers for it. -/
theorem eraseFrom_inherits (hr : reg.Rooted) (hm : m ∈ reg.models)
    (hnd : ∀ m ∈ reg.models, (st.keys m).Nodup) (hi : Inherits reg st) (pk : Value) :
    Inherits reg (eraseFrom (family reg m) st pk) := by
  have hnames : ((family reg m).map Model.name).Nodup :=
    hr.names.sublist (List.filter_sublist.map _)
  intro m' hm' upper hu
  have hum := hr.mem_models hm' hu
  by_cases hin : m' ∈ family reg m
  · have hup := (mem_family_of_lineage hr hm hm' hu).mpr hin
    rw [keys, keys, table_eraseFrom_mem st pk hnames hin, table_eraseFrom_mem st pk hnames hup]
    exact Keyed.erase_keys_subset (hnd m' hm') (hi m' hm' upper hu) pk
  · have hout : ∀ level ∈ reg.models, level ∉ family reg m → level.name ∉ (family reg m).map Model.name := by
      intro level hlevel hl hmem
      obtain ⟨other, ho, hn⟩ := List.mem_map.mp hmem
      exact hl (hr.eq_of_name (List.mem_filter.mp ho).1 hlevel hn ▸ ho)
    have hup : upper ∉ family reg m := fun h => hin ((mem_family_of_lineage hr hm hm' hu).mp h)
    rw [keys, keys, table_eraseFrom_ne st pk (hout m' hm' hin), table_eraseFrom_ne st pk (hout upper hum hup)]
    exact hi m' hm' upper hu

/-! ## Deletes -/

theorem deleteRows_shrinks (reg : Registry) (fuel : Nat) (st : Store) (m : Model) (pks : List Value) :
    Shrinks st (deleteRows reg fuel st m pks) :=
  deleteRows_keeps (fun _ _ => trivial) (fun m _ pk _ hs => hs.trans (eraseFrom_shrinks (family reg m) _ pk)) _ trivial
    (.refl st) pks

theorem delete_eq_ok {qs : Queryset} {n : Nat} (h : delete reg st qs = .ok (n, st')) :
    ∃ pks, select reg st qs = .ok pks ∧ n = pks.length ∧
      st' = deleteRows reg (st.size + 1) st qs.model pks := by
  obtain ⟨pks, hpks, h⟩ := Outcome.bind_eq_ok.mp h
  cases h
  exact ⟨pks, hpks, rfl, rfl⟩

theorem delete_shrinks {qs : Queryset} {n : Nat} (h : delete reg st qs = .ok (n, st')) : Shrinks st st' := by
  obtain ⟨pks, _, _, rfl⟩ := delete_eq_ok h
  exact deleteRows_shrinks reg _ st qs.model pks

theorem delete_inherits (hr : reg.Rooted) {qs : Queryset} (hm : qs.model ∈ reg.models)
    (hnd : ∀ m ∈ reg.models, (st.keys m).Nodup) (hi : Inherits reg st) {n : Nat}
    (h : delete reg st qs = .ok (n, st')) : Inherits reg st' := by
  obtain ⟨pks, _, _, rfl⟩ := delete_eq_ok h
  have hboth : (∀ m ∈ reg.models, ((deleteRows reg (st.size + 1) st qs.model pks).keys m).Nodup) ∧
      Inherits reg (deleteRows reg (st.size + 1) st qs.model pks) := by
    refine deleteRows_keeps (Q := fun st => (∀ m ∈ reg.models, (st.keys m).Nodup) ∧ Inherits reg st) (fun _ hm => hm)
      (fun m hm pk st h => ⟨fun m' hm' => ?_, eraseFrom_inherits hr hm h.1 h.2 pk⟩) _ hm ⟨hnd, hi⟩ pks
    exact (h.1 m' hm').sublist ((eraseFrom_shrinks (family reg m) st pk).keys m')
  exact hboth.2

end RecordMapper.Store
