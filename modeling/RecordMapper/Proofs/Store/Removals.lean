import RecordMapper.Proofs.Database.Constraints
import RecordMapper.Proofs.Value.Plain

/-!
# Removals — the rows that a delete removes

Deleting rows dooms the rows of their family under the same keys, and
then, reference by reference, the rows that read a doomed key
(`Doomed`). Where equal keys are the same (`Discerned`), a delete removes
the doomed rows and no other (`deleteRows_removes`).

Two halves meet there. Every row that goes is in any set that is closed
under references (`deleteRows_within`); and what a delete leaves is
`Cascaded`: no part of a lost row stays behind, and no row that reads a
lost key. Both are relations between the store before and the store
after, so one level of the recursion is enough to prove them. Every level
makes the store smaller, hence the fuel that a delete is given never runs
out (`deleteRows_fuel`).
-/

namespace RecordMapper.Store

variable {reg : Registry} {st st' before : Store} {m m' t u owner : Model} {pk k : Value}
  {pks removed : List Value}

/-! ## Doomed rows -/

/-- The rows that go with rows of a model: those of its family under the given keys, and along the
columns that refer to a family those of the families of the rows that read a key gone there. -/
inductive Doomed (reg : Registry) (st : Store) (m : Model) (pks : List Value) : Model → Value → Prop
  | given {t : Model} {k : Value} (member : t ∈ family reg m) (listed : k ∈ pks) (stored : k ∈ st.keys t) :
    Doomed reg st m pks t k
  | refers {t owner u : Model} {f : Field} {k key : Value} (gone : Doomed reg st m pks t k)
    (column : (owner, f) ∈ referringColumns reg (family reg t)) (row : key ∈ st.keys owner)
    (reads : cell reg st owner key f.name = k) (member : u ∈ family reg owner) (stored : key ∈ st.keys u) :
    Doomed reg st m pks u key

theorem Doomed.mem_keys (h : Doomed reg st m pks t k) : t ∈ reg.models ∧ k ∈ st.keys t := by
  cases h with
  | given member _ stored => exact ⟨(List.mem_filter.mp member).1, stored⟩
  | refers _ _ _ _ member stored => exact ⟨(List.mem_filter.mp member).1, stored⟩

/-- A key of some table. -/
def Stored (reg : Registry) (st : Store) (k : Value) : Prop := ∃ m ∈ reg.models, k ∈ st.keys m

/-- What a column reads that refers to rows. -/
def Referred (reg : Registry) (st : Store) (v : Value) : Prop :=
  ∃ m ∈ reg.models, ∃ f ∈ m.own, f.isForeignKey ∧ ∃ k ∈ st.keys m, v = cell reg st m k f.name

/-- A key is equal to a key or to a reference just where it is the same. -/
def Discerned (reg : Registry) (st : Store) : Prop :=
  ∀ k, Stored reg st k → ∀ v, Stored reg st v ∨ Referred reg st v → (k.equiv v ↔ k = v)

theorem discerned_of_isPlain
    (h : ∀ v, Stored reg st v ∨ Referred reg st v → v = .null ∨ v.isPlain) : Discerned reg st := by
  intro k hk v hv
  rcases h v hv with rfl | hplain
  · cases k <;> simp [Value.equiv, Value.same]
  · exact Value.equiv_iff_of_isPlain hplain

/-! ## Families and references -/

theorem mem_models_of_mem_family (h : t ∈ family reg m) : t ∈ reg.models :=
  (List.mem_filter.mp h).1

/-- The members of a family have one family. -/
theorem family_eq (hr : reg.Rooted) (hm : m ∈ reg.models) (h : t ∈ family reg m) :
    family reg t = family reg m := by
  rw [family, family, (mem_family hr hm (mem_models_of_mem_family h)).mp h]

theorem self_mem_family (hr : reg.Rooted) (hm : m ∈ reg.models) : m ∈ family reg m :=
  (mem_family hr hm hm).mpr rfl

theorem mem_referringColumns {levels : List Model} {f : Field}
    (h : (owner, f) ∈ referringColumns reg levels) : owner ∈ reg.models ∧ f ∈ owner.own ∧ f.isForeignKey := by
  obtain ⟨level, hlevel, hmem⟩ := List.mem_flatMap.mp h
  obtain ⟨column, hcolumn, he⟩ := List.mem_map.mp hmem
  cases he
  obtain ⟨hown, htest⟩ := List.mem_filter.mp hcolumn
  exact ⟨hlevel, hown, (Bool.and_eq_true _ _ ▸ htest).1⟩

theorem isConcrete_of_isForeignKey {f : Field} (h : f.isForeignKey) : f.isConcrete := by
  unfold Field.isForeignKey at h
  unfold Field.isConcrete
  revert h
  cases f.type <;> simp [FieldType.isConcrete]

/-- A reference reads the same as long as its row stands. -/
theorem Shrinks.cell_eq (h : Shrinks st st') (hr : reg.Rooted) {levels : List Model} {f : Field}
    (hc : (owner, f) ∈ referringColumns reg levels) (hk : k ∈ st'.keys owner) :
    cell reg st' owner k f.name = cell reg st owner k f.name := by
  obtain ⟨ho, hf, hfk⟩ := mem_referringColumns hc
  exact cell_congr hr ho hf (isConcrete_of_isForeignKey hfk) (h.row owner k hk)

theorem Shrinks.stored (h : Shrinks st st') (hk : Stored reg st' k) : Stored reg st k := by
  obtain ⟨m, hm, hk⟩ := hk
  exact ⟨m, hm, (h.keys m).subset hk⟩

/-! ## Erasing keys from a family -/

/-- Where equal keys are the same, a key is found in a table only where it stands. -/
theorem mem_keys_of_contains (hd : Discerned reg before) (h : Shrinks before st) (ht : t ∈ reg.models)
    (hpk : Stored reg before pk) (hc : st.contains t pk = true) : pk ∈ st.keys t := by
  obtain ⟨row, hrow⟩ := Option.isSome_iff_exists.mp hc
  have hseat : Keyed.seat (st.table t).rows pk ∈ st.keys t := Keyed.seat_mem_of_get? hrow
  rcases Keyed.seat_eq_or_sole (st.table t).rows pk with hs | ⟨_, hequiv⟩
  · exact hs ▸ hseat
  · have hstored := h.stored ⟨t, ht, hseat⟩
    exact (hd pk hpk _ (.inl hstored)).mp hequiv ▸ hseat

theorem seat_eq_of_discerned (hd : Discerned reg before) (h : Shrinks before st) (ht : t ∈ reg.models)
    (hpk : Stored reg before pk) (hseat : Keyed.seat (st.table t).rows pk ∈ st.keys t) :
    Keyed.seat (st.table t).rows pk = pk := by
  rcases Keyed.seat_eq_or_sole (st.table t).rows pk with hs | ⟨_, hequiv⟩
  · exact hs
  · exact ((hd pk hpk _ (.inl (h.stored ⟨t, ht, hseat⟩))).mp hequiv).symm

/-- The keys of a table after a key was erased from the tables of a family. -/
theorem mem_keys_eraseFrom_family (hr : reg.Rooted) (hd : Discerned reg before) (h : Shrinks before st)
    (hpk : Stored reg before pk) (ht : t ∈ reg.models) :
    k ∈ (eraseFrom (family reg m) st pk).keys t ↔ k ∈ st.keys t ∧ ¬ (t ∈ family reg m ∧ k = pk) := by
  have hnames : ((family reg m).map Model.name).Nodup := hr.names.sublist (List.filter_sublist.map _)
  by_cases hin : t ∈ family reg m
  · have hkeys : k ∈ (eraseFrom (family reg m) st pk).keys t ↔
        k ∈ st.keys t ∧ k ≠ Keyed.seat (st.table t).rows pk := by
      rw [keys, table_eraseFrom_mem st pk hnames hin]
      exact Keyed.mem_keys_erase
    rw [hkeys]
    refine and_congr_right fun hk => ?_
    simp only [hin, true_and]
    refine not_congr ⟨?_, ?_⟩
    · rintro rfl
      exact seat_eq_of_discerned hd h ht hpk hk
    · rintro rfl
      exact (Keyed.seat_of_mem hk).symm
  · have hname : t.name ∉ (family reg m).map Model.name := by
      intro hmem
      obtain ⟨other, ho, hn⟩ := List.mem_map.mp hmem
      exact hin (hr.eq_of_name (mem_models_of_mem_family ho) ht hn ▸ ho)
    rw [keys, table_eraseFrom_ne st pk hname]
    simp [hin, keys]

/-- The keys of a table after keys were erased one by one, and what the keys are that had a row. -/
theorem eraseAll_spec (hr : reg.Rooted) (hd : Discerned reg before) (h : Shrinks before st)
    (hpks : ∀ pk ∈ pks, Stored reg before pk) :
    Shrinks st (eraseAll (family reg m) st pks).2 ∧
    (∀ pk ∈ (eraseAll (family reg m) st pks).1, pk ∈ pks ∧ ∃ t ∈ family reg m, pk ∈ st.keys t) ∧
    ∀ t ∈ reg.models, ∀ k, k ∈ (eraseAll (family reg m) st pks).2.keys t ↔
      k ∈ st.keys t ∧ ¬ (t ∈ family reg m ∧ k ∈ (eraseAll (family reg m) st pks).1) := by
  induction pks generalizing st with
  | nil => exact ⟨.refl st, fun _ h => absurd h List.not_mem_nil, fun _ _ _ => by simp [eraseAll]⟩
  | cons pk rest ih =>
      have hpk := hpks pk List.mem_cons_self
      have hrest := fun pk hpk => hpks pk (List.mem_cons_of_mem _ hpk)
      rw [eraseAll]
      split
      · rename_i hany
        obtain ⟨t, ht, hc⟩ := List.any_eq_true.mp hany
        have herased := eraseFrom_shrinks (family reg m) st pk
        obtain ⟨hs, hgone, hkeys⟩ := ih (h.trans herased) hrest
        simp only []
        refine ⟨herased.trans hs, ?_, fun t ht k => ?_⟩
        · intro pk' hpk'
          rcases List.mem_cons.mp hpk' with rfl | hpk'
          · exact ⟨List.mem_cons_self, t, ht, mem_keys_of_contains hd h (mem_models_of_mem_family ht) hpk hc⟩
          · obtain ⟨hmem, t', ht', hk⟩ := hgone pk' hpk'
            exact ⟨List.mem_cons_of_mem _ hmem, t', ht', (herased.keys t').subset hk⟩
        · rw [hkeys t ht k, mem_keys_eraseFrom_family hr hd h hpk ht, List.mem_cons, and_assoc]
          refine and_congr_right fun _ => ?_
          rw [← not_or, ← and_or_left]
      · obtain ⟨hs, hgone, hkeys⟩ := ih h hrest
        refine ⟨hs, fun pk' hpk' => ?_, hkeys⟩
        obtain ⟨hmem, t', ht', hk⟩ := hgone pk' hpk'
        exact ⟨List.mem_cons_of_mem _ hmem, t', ht', hk⟩

/-- A key that has a row is among those that had one when they were erased. -/
theorem mem_removed_of_mem (ht : t ∈ family reg m) (hpk : pk ∈ pks) (hk : pk ∈ st.keys t) (hr : reg.Rooted)
    (hd : Discerned reg before) (h : Shrinks before st) (hpks : ∀ pk ∈ pks, Stored reg before pk) :
    pk ∈ (eraseAll (family reg m) st pks).1 := by
  induction pks generalizing st with
  | nil => cases hpk
  | cons other rest ih =>
      have hrest := fun pk hpk => hpks pk (List.mem_cons_of_mem _ hpk)
      rw [eraseAll]
      split
      · rcases eq_or_ne pk other with rfl | hne
        · exact List.mem_cons_self
        · refine List.mem_cons_of_mem _ (ih ((List.mem_cons.mp hpk).resolve_left hne) ?_
            (h.trans (eraseFrom_shrinks _ st other)) hrest)
          rw [mem_keys_eraseFrom_family hr hd h (hpks other List.mem_cons_self) (mem_models_of_mem_family ht)]
          exact ⟨hk, fun he => hne he.2⟩
      · rename_i hany
        rcases List.mem_cons.mp hpk with rfl | hpk
        · exact absurd (List.any_eq_true.mpr ⟨t, ht, contains_of_mem hk⟩) hany
        · exact ih hpk hk h hrest

/-! ## One level of the recursion -/

/-- What a level does about one column: the rows go that refer through it to removed ones. -/
def removeReferring (reg : Registry) (fuel : Nat) (removed : List Value) (st : Store) (column : Model × Field) :
    Store :=
  let referring := referringKeys reg st column.1 column.2 removed
  if referring.isEmpty then st else deleteRows reg fuel st column.1 referring

theorem deleteRows_succ (reg : Registry) (fuel : Nat) (st : Store) (m : Model) (pks : List Value) :
    deleteRows reg (fuel + 1) st m pks =
      if (eraseAll (family reg m) st pks).1.isEmpty then (eraseAll (family reg m) st pks).2
      else (referringColumns reg (family reg m)).foldl
        (removeReferring reg fuel (eraseAll (family reg m) st pks).1) (eraseAll (family reg m) st pks).2 :=
  rfl

theorem removeReferring_cases (reg : Registry) (fuel : Nat) (removed : List Value) (st : Store)
    (column : Model × Field) :
    referringKeys reg st column.1 column.2 removed = [] ∧ removeReferring reg fuel removed st column = st ∨
    removeReferring reg fuel removed st column =
      deleteRows reg fuel st column.1 (referringKeys reg st column.1 column.2 removed) := by
  rw [removeReferring]
  split
  · rename_i hnone
    exact .inl ⟨List.isEmpty_iff.mp hnone, rfl⟩
  · exact .inr rfl

theorem mem_referringKeys {f : Field} :
    k ∈ referringKeys reg st owner f removed ↔
      k ∈ st.keys owner ∧ ∃ pk ∈ removed, pk.equiv (cell reg st owner k f.name) := by
  rw [referringKeys, List.mem_filter, List.any_eq_true]

/-- Where equal keys are the same, the rows that refer to removed ones read a removed key. -/
theorem mem_referringKeys_iff (hr : reg.Rooted) (hd : Discerned reg before) (h : Shrinks before st)
    (hremoved : ∀ pk ∈ removed, Stored reg before pk) {levels : List Model} {f : Field}
    (hc : (owner, f) ∈ referringColumns reg levels) :
    k ∈ referringKeys reg st owner f removed ↔ k ∈ st.keys owner ∧ cell reg before owner k f.name ∈ removed := by
  rw [mem_referringKeys]
  refine and_congr_right fun hk => ?_
  obtain ⟨ho, hf, hfk⟩ := mem_referringColumns hc
  rw [h.cell_eq hr hc hk]
  have hreferred : Referred reg before (cell reg before owner k f.name) :=
    ⟨owner, ho, f, hf, hfk, k, (h.keys owner).subset hk, rfl⟩
  constructor
  · rintro ⟨pk, hpk, hequiv⟩
    exact (hd pk (hremoved pk hpk) _ (.inr hreferred)).mp hequiv ▸ hpk
  · exact fun hmem => ⟨_, hmem, (hd _ (hremoved _ hmem) _ (.inr hreferred)).mpr rfl⟩

theorem stored_of_referring (h : Shrinks before st) {f : Field} (ho : owner ∈ reg.models) :
    ∀ pk ∈ referringKeys reg st owner f removed, Stored reg before pk :=
  fun _ hpk => ⟨owner, ho, (h.keys owner).subset (mem_referringKeys.mp hpk).1⟩

/-! ## No row too many -/

/-- A set of rows that holds with a row those that read its key, in all tables of their families. -/
def Closed (reg : Registry) (st : Store) (D : Model → Value → Prop) : Prop :=
  ∀ t k, D t k → ∀ owner f, (owner, f) ∈ referringColumns reg (family reg t) → ∀ key ∈ st.keys owner,
    cell reg st owner key f.name = k → ∀ u ∈ family reg owner, key ∈ st.keys u → D u key

theorem closed_doomed : Closed reg st (Doomed reg st m pks) :=
  fun _ _ hgone _ _ hc _ hrow hreads _ hu hstored => .refers hgone hc hrow hreads hu hstored

/-- What a delete removes lies in every closed set that holds the rows it starts from. -/
theorem deleteRows_within (hr : reg.Rooted) (hd : Discerned reg before) {D : Model → Value → Prop}
    (hD : Closed reg before D) (fuel : Nat) (hm : m ∈ reg.models) (h : Shrinks before st)
    (hpks : ∀ pk ∈ pks, Stored reg before pk)
    (hin : ∀ pk ∈ pks, ∀ t ∈ family reg m, pk ∈ before.keys t → D t pk) :
    ∀ t ∈ reg.models, ∀ k ∈ st.keys t, ¬ D t k → k ∈ (deleteRows reg fuel st m pks).keys t := by
  induction fuel generalizing st m pks with
  | zero => exact fun _ _ _ hk _ => hk
  | succ fuel ih =>
      obtain ⟨hshrinks, hremoved, hkeys⟩ := eraseAll_spec (m := m) hr hd h hpks
      rw [deleteRows_succ]
      generalize eraseAll (family reg m) st pks = erased at hshrinks hremoved hkeys ⊢
      have hfirst : ∀ t ∈ reg.models, ∀ k ∈ st.keys t, ¬ D t k → k ∈ erased.2.keys t := by
        refine fun t ht k hk hnot => (hkeys t ht k).mpr ⟨hk, fun ⟨hfam, hgone⟩ => hnot ?_⟩
        exact hin k (hremoved k hgone).1 t hfam ((h.keys t).subset hk)
      split
      · exact hfirst
      -- Every column takes only rows that read a key of the set.
      · refine (List.foldlRecOn
          (motive := fun s => Shrinks before s ∧ ∀ t ∈ reg.models, ∀ k ∈ st.keys t, ¬ D t k → k ∈ s.keys t)
          _ _ ⟨h.trans hshrinks, hfirst⟩ fun s ⟨hs, hrest⟩ ⟨owner, f⟩ hc => ?_).2
        obtain ⟨ho, -, -⟩ := mem_referringColumns hc
        have hstored : ∀ pk ∈ erased.1, Stored reg before pk := fun pk hpk => hpks pk (hremoved pk hpk).1
        rcases removeReferring_cases reg fuel erased.1 s (owner, f) with ⟨-, he⟩ | he
        · exact he.symm ▸ ⟨hs, hrest⟩
        · rw [he]
          refine ⟨hs.trans (deleteRows_shrinks reg fuel s owner _), fun t ht k hk hnot => ?_⟩
          refine ih ho hs (stored_of_referring hs ho) (fun key hkey u hu hstay => ?_) t ht k (hrest t ht k hk hnot) hnot
          obtain ⟨hrow, hreads⟩ := (mem_referringKeys_iff hr hd hs hstored hc).mp hkey
          obtain ⟨hlisted, t', ht', hk'⟩ := hremoved _ hreads
          exact hD t' _ (hin _ hlisted t' ht' ((h.keys t').subset hk')) owner f
            (by rwa [family_eq hr hm ht']) key ((hs.keys owner).subset hrow) rfl u hu hstay

/-! ## No row too few -/

/-- What a delete leaves of a store: a row goes from all tables of its family together, and no row stays
that reads a key gone from the family that it refers to. -/
structure Cascaded (reg : Registry) (before st : Store) : Prop where
  shrinks : Shrinks before st
  together : ∀ t ∈ reg.models, ∀ k ∈ before.keys t, k ∉ st.keys t → ∀ u ∈ family reg t, k ∉ st.keys u
  answered : ∀ t ∈ reg.models, ∀ k ∈ before.keys t, k ∉ st.keys t → ∀ owner f,
    (owner, f) ∈ referringColumns reg (family reg t) → ∀ key ∈ st.keys owner, cell reg st owner key f.name ≠ k

theorem Cascaded.refl (st : Store) : Cascaded reg st st where
  shrinks := .refl st
  together _ _ _ hk hnot := absurd hk hnot
  answered _ _ _ hk hnot := absurd hk hnot

theorem Cascaded.trans {middle : Store} (hr : reg.Rooted) (h : Cascaded reg before middle)
    (h' : Cascaded reg middle st) : Cascaded reg before st where
  shrinks := h.shrinks.trans h'.shrinks
  together t ht k hk hnot u hu := by
    by_cases hmid : k ∈ middle.keys t
    · exact h'.together t ht k hmid hnot u hu
    · exact fun hin => h.together t ht k hk hmid u hu ((h'.shrinks.keys u).subset hin)
  answered t ht k hk hnot owner f hc key hkey := by
    by_cases hmid : k ∈ middle.keys t
    · exact h'.answered t ht k hmid hnot owner f hc key hkey
    · rw [h'.shrinks.cell_eq hr hc hkey]
      exact h.answered t ht k hk hmid owner f hc key ((h'.shrinks.keys owner).subset hkey)

/-- A fold brings about what each of its steps brings about and the others keep. -/
theorem foldl_settles {α σ : Type} {f : σ → α → σ} {I : σ → Prop} {D : α → σ → Prop} {l : List α}
    (hstep : ∀ s, ∀ a ∈ l, I s → I (f s a) ∧ D a (f s a))
    (hkeep : ∀ s a, ∀ b ∈ l, I s → D a s → D a (f s b)) {s : σ} (h : I s) :
    I (l.foldl f s) ∧ ∀ a ∈ l, D a (l.foldl f s) := by
  induction l generalizing s with
  | nil => exact ⟨h, fun _ h => absurd h List.not_mem_nil⟩
  | cons a rest ih =>
      have hrest := fun s b hb => hstep s b (List.mem_cons_of_mem a hb)
      have hkeep' := fun s c b hb => hkeep s c b (List.mem_cons_of_mem a hb)
      obtain ⟨hI, hdone⟩ := hstep s a List.mem_cons_self h
      obtain ⟨hfinal, hall⟩ := ih hrest hkeep' hI
      refine ⟨hfinal, fun b hb => ?_⟩
      rcases List.mem_cons.mp hb with rfl | hb
      · exact (List.foldlRecOn (motive := fun s => I s ∧ D b s) rest _ ⟨hI, hdone⟩
          fun s hs c hc => ⟨(hrest s c hc hs.1).1, hkeep' s b c hc hs.1 hs.2⟩).2
      · exact hall b hb

/-! ## Fuel -/

theorem size_setTable (st : Store) (m : Model) (tbl : Table) :
    (st.setTable m tbl).size + (st.table m).rows.length = st.size + tbl.rows.length := by
  have hsum := sum_insertEntry (fun t : Table => t.rows.length) st.tables m.name tbl
  have hrows : (st.table m).rows.length = ((st.tables.lookup m.name).map fun t => t.rows.length).getD 0 := by
    rw [table]
    cases st.tables.lookup m.name <;> rfl
  rw [hrows]
  exact hsum

theorem size_eraseRow_le (st : Store) (m : Model) (pk : Value) : (st.eraseRow m pk).size ≤ st.size := by
  have hsize := size_setTable st m { st.table m with rows := Keyed.erase (st.table m).rows pk }
  have hle : (Keyed.erase (st.table m).rows pk).length ≤ (st.table m).rows.length := List.length_filter_le ..
  rw [eraseRow]
  simp only [] at hsize ⊢
  omega

theorem size_eraseRow_lt (h : st.contains m pk = true) : (st.eraseRow m pk).size < st.size := by
  have hsize := size_setTable st m { st.table m with rows := Keyed.erase (st.table m).rows pk }
  obtain ⟨row, hrow⟩ := Option.isSome_iff_exists.mp h
  have hlt : (Keyed.erase (st.table m).rows pk).length < (st.table m).rows.length :=
    List.length_filter_lt_length_iff_exists.mpr ⟨_, mem_of_lookup hrow, by simp⟩
  rw [eraseRow]
  simp only [] at hsize ⊢
  omega

theorem size_eraseFrom_le (levels : List Model) (st : Store) (pk : Value) :
    (eraseFrom levels st pk).size ≤ st.size :=
  List.foldlRecOn (motive := fun (s : Store) => s.size ≤ st.size) levels _ (Nat.le_refl _)
    fun s hs level _ => Nat.le_trans (size_eraseRow_le s level pk) hs

theorem size_eraseFrom_lt {levels : List Model} (h : levels.any fun level => st.contains level pk) :
    (eraseFrom levels st pk).size < st.size := by
  induction levels generalizing st with
  | nil => cases h
  | cons level rest ih =>
      rw [eraseFrom, List.foldl_cons]
      by_cases hc : st.contains level pk = true
      · exact Nat.lt_of_le_of_lt (size_eraseFrom_le rest _ pk) (size_eraseRow_lt hc)
      · obtain ⟨other, ho, hco⟩ := List.any_eq_true.mp h
        have hne : other.name ≠ level.name := by
          intro hn
          rw [contains, row?, table_congr_name hn] at hco
          exact hc hco
        have hrest : other ∈ rest := (List.mem_cons.mp ho).resolve_left fun he => hne (he ▸ rfl)
        refine Nat.lt_of_lt_of_le (ih (List.any_eq_true.mpr ⟨other, hrest, ?_⟩)) (size_eraseRow_le st level pk)
        rw [contains, row?, table_eraseRow_ne st pk hne]
        exact hco

theorem size_eraseAll_le (levels : List Model) (st : Store) (pks : List Value) :
    (eraseAll levels st pks).2.size ≤ st.size := by
  induction pks generalizing st with
  | nil => exact Nat.le_refl _
  | cons pk rest ih =>
      rw [eraseAll]
      split
      · exact Nat.le_trans (ih _) (size_eraseFrom_le levels st pk)
      · exact ih st

/-- Where a key had a row, the store is smaller. -/
theorem size_eraseAll_lt {levels : List Model} (h : ¬ (eraseAll levels st pks).1.isEmpty) :
    (eraseAll levels st pks).2.size < st.size := by
  induction pks with
  | nil => exact absurd rfl h
  | cons pk rest ih =>
      rw [eraseAll] at h ⊢
      split
      · rename_i hany
        exact Nat.lt_of_le_of_lt (size_eraseAll_le levels _ rest) (size_eraseFrom_lt hany)
      · rename_i hany
        rw [if_neg hany] at h
        exact ih h

theorem size_deleteRows_le (fuel : Nat) (hm : m ∈ reg.models) (st : Store) (pks : List Value) :
    (deleteRows reg fuel st m pks).size ≤ st.size :=
  deleteRows_keeps (Q := fun (s : Store) => s.size ≤ st.size) (fun _ hm => hm)
    (fun m _ pk s hs => Nat.le_trans (size_eraseFrom_le (family reg m) s pk) hs) fuel hm (Nat.le_refl _) pks

theorem size_removeReferring_le (fuel : Nat) (column : Model × Field) (hm : column.1 ∈ reg.models) (st : Store) :
    (removeReferring reg fuel removed st column).size ≤ st.size := by
  rcases removeReferring_cases reg fuel removed st column with ⟨-, he⟩ | he
  · exact Nat.le_of_eq (congrArg Store.size he)
  · rw [he]
    exact size_deleteRows_le fuel hm st _

theorem removeReferring_shrinks (fuel : Nat) (column : Model × Field) (st : Store) :
    Shrinks st (removeReferring reg fuel removed st column) := by
  rcases removeReferring_cases reg fuel removed st column with ⟨-, he⟩ | he
  · exact he.symm ▸ .refl st
  · exact he ▸ deleteRows_shrinks reg fuel st column.1 _

/-- A delete does not use up more fuel than there are rows. -/
theorem deleteRows_fuel {fuel fuel' : Nat} (hm : m ∈ reg.models) (h : st.size < fuel) (h' : st.size < fuel') :
    deleteRows reg fuel st m pks = deleteRows reg fuel' st m pks := by
  induction fuel generalizing fuel' st m pks with
  | zero => exact absurd h (Nat.not_lt_zero _)
  | succ fuel ih =>
      obtain ⟨fuel', rfl⟩ := Nat.exists_eq_succ_of_ne_zero (Nat.ne_of_gt (Nat.zero_lt_of_lt h'))
      rw [deleteRows_succ, deleteRows_succ]
      by_cases hnone : (eraseAll (family reg m) st pks).1.isEmpty
      · rw [if_pos hnone, if_pos hnone]
      · rw [if_neg hnone, if_neg hnone]
        have hlt := size_eraseAll_lt hnone
        generalize eraseAll (family reg m) st pks = erased at hlt ⊢
        obtain ⟨removed, s⟩ := erased
        simp only [] at hlt ⊢
        have hcolumns : ∀ column ∈ referringColumns reg (family reg m), column.1 ∈ reg.models :=
          fun _ hc => (mem_referringColumns hc).1
        -- Every column starts from a store that is smaller still, where both levels below agree.
        generalize referringColumns reg (family reg m) = columns at hcolumns
        induction columns generalizing s with
        | nil => rfl
        | cons column rest ihc =>
            have howner := hcolumns column List.mem_cons_self
            have hsame : removeReferring reg fuel removed s column = removeReferring reg fuel' removed s column := by
              unfold removeReferring
              simp only []
              split
              · rfl
              · exact ih howner (by omega) (by omega)
            rw [List.foldl_cons, List.foldl_cons, hsame]
            refine ihc _ (Nat.lt_of_le_of_lt (size_removeReferring_le fuel' column howner s) hlt) ?_
            exact fun c hc => hcolumns c (List.mem_cons_of_mem _ hc)

/-! ## Whole deletes -/

/-- One level: what is erased goes together, and the columns see to the rows that read it. -/
theorem cascaded_of_columns {s : Store} (hr : reg.Rooted) (hd : Discerned reg before) (hm : m ∈ reg.models)
    (h : Shrinks before st) (hpks : ∀ pk ∈ pks, Stored reg before pk)
    (hrest : Cascaded reg (eraseAll (family reg m) st pks).2 s)
    (hdone : ∀ column ∈ referringColumns reg (family reg m), ∀ key ∈ s.keys column.1,
      cell reg before column.1 key column.2.name ∉ (eraseAll (family reg m) st pks).1) :
    Cascaded reg st s := by
  obtain ⟨hshrinks, -, hkeys⟩ := eraseAll_spec (m := m) hr hd h hpks
  generalize eraseAll (family reg m) st pks = erased at hshrinks hkeys hrest hdone
  have hlost : ∀ t ∈ reg.models, ∀ k ∈ st.keys t, k ∉ erased.2.keys t → t ∈ family reg m ∧ k ∈ erased.1 :=
    fun t ht k hk hnot => by_contra fun hcon => hnot ((hkeys t ht k).mpr ⟨hk, hcon⟩)
  constructor
  case shrinks => exact hshrinks.trans hrest.shrinks
  case together =>
    intro t ht k hk hnot u hu
    by_cases hmid : k ∈ erased.2.keys t
    · exact hrest.together t ht k hmid hnot u hu
    · obtain ⟨hfam, hgone⟩ := hlost t ht k hk hmid
      rw [family_eq hr hm hfam] at hu
      intro hstay
      exact ((hkeys u (mem_models_of_mem_family hu) k).mp ((hrest.shrinks.keys u).subset hstay)).2 ⟨hu, hgone⟩
  case answered =>
    intro t ht k hk hnot owner f hc key hkey
    by_cases hmid : k ∈ erased.2.keys t
    · exact hrest.answered t ht k hmid hnot owner f hc key hkey
    · obtain ⟨hfam, hgone⟩ := hlost t ht k hk hmid
      rw [((h.trans hshrinks).trans hrest.shrinks).cell_eq hr hc hkey]
      rintro rfl
      rw [family_eq hr hm hfam] at hc
      exact hdone (owner, f) hc key hkey hgone

/-- One column: after it no row reads a removed key there. -/
theorem removeReferring_cascaded (hr : reg.Rooted) (hd : Discerned reg before) {fuel : Nat}
    (h : Shrinks before st) (hremoved : ∀ pk ∈ removed, Stored reg before pk) {levels : List Model} {f : Field}
    (hc : (owner, f) ∈ referringColumns reg levels)
    (hbelow : Cascaded reg st (deleteRows reg fuel st owner (referringKeys reg st owner f removed)) ∧
      ∀ pk ∈ referringKeys reg st owner f removed, ∀ t ∈ family reg owner,
        pk ∉ (deleteRows reg fuel st owner (referringKeys reg st owner f removed)).keys t) :
    Cascaded reg st (removeReferring reg fuel removed st (owner, f)) ∧
      ∀ key ∈ (removeReferring reg fuel removed st (owner, f)).keys owner,
        cell reg before owner key f.name ∉ removed := by
  have hiff := fun k => mem_referringKeys_iff (k := k) hr hd h hremoved hc
  rcases removeReferring_cases reg fuel removed st (owner, f) with ⟨hnone, he⟩ | he
  · rw [he]
    refine ⟨.refl st, fun key hkey hin => ?_⟩
    have hmem := (hiff key).mpr ⟨hkey, hin⟩
    rw [hnone] at hmem
    cases hmem
  · rw [he]
    refine ⟨hbelow.1, fun key hkey hin => ?_⟩
    have hmem := (hiff key).mpr ⟨(hbelow.1.shrinks.keys owner).subset hkey, hin⟩
    exact hbelow.2 key hmem owner (self_mem_family hr (mem_referringColumns hc).1) hkey

/-- With fuel for all rows, a delete cascades and leaves none of the rows it was given. -/
theorem deleteRows_cascaded (hr : reg.Rooted) (hd : Discerned reg before) {fuel : Nat} (hm : m ∈ reg.models)
    (h : Shrinks before st) (hfuel : st.size < fuel) (hpks : ∀ pk ∈ pks, Stored reg before pk) :
    Cascaded reg st (deleteRows reg fuel st m pks) ∧
      ∀ pk ∈ pks, ∀ t ∈ family reg m, pk ∉ (deleteRows reg fuel st m pks).keys t := by
  induction fuel generalizing st m pks with
  | zero => exact absurd hfuel (Nat.not_lt_zero _)
  | succ fuel ih =>
      obtain ⟨hshrinks, hremoved, hkeys⟩ := eraseAll_spec (m := m) hr hd h hpks
      have hlisted : ∀ pk ∈ pks, ∀ t ∈ family reg m, pk ∉ (eraseAll (family reg m) st pks).2.keys t := by
        intro pk hpk t ht hstay
        obtain ⟨hk, hnot⟩ := (hkeys t (mem_models_of_mem_family ht) pk).mp hstay
        exact hnot ⟨ht, mem_removed_of_mem ht hpk hk hr hd h hpks⟩
      have hlevel := fun s => cascaded_of_columns (s := s) hr hd hm h hpks
      have hsize : ¬(eraseAll (family reg m) st pks).1.isEmpty →
          (eraseAll (family reg m) st pks).2.size < st.size := size_eraseAll_lt
      rw [deleteRows_succ]
      generalize eraseAll (family reg m) st pks = erased at hshrinks hremoved hlisted hlevel hsize ⊢
      split
      · rename_i hnone
        refine ⟨hlevel erased.2 (.refl _) fun _ _ _ _ => ?_, hlisted⟩
        rw [List.isEmpty_iff.mp hnone]
        exact List.not_mem_nil
      · rename_i hsome
        have hstored : ∀ pk ∈ erased.1, Stored reg before pk := fun pk hpk => hpks pk (hremoved pk hpk).1
        -- The store only gets smaller, so the fuel that is left suffices for every column.
        obtain ⟨⟨hrest, -⟩, hdone⟩ := foldl_settles (f := removeReferring reg fuel erased.1)
          (I := fun s => Cascaded reg erased.2 s ∧ s.size < fuel)
          (D := fun column s => ∀ key ∈ s.keys column.1, cell reg before column.1 key column.2.name ∉ erased.1)
          (l := referringColumns reg (family reg m)) (s := erased.2)
          (fun s column hc hs => by
            have ho := (mem_referringColumns hc).1
            have hbefore := (h.trans hshrinks).trans hs.1.shrinks
            obtain ⟨hcascaded, hread⟩ := removeReferring_cascaded hr hd hbefore hstored hc
              (ih ho hbefore hs.2 (stored_of_referring hbefore ho))
            exact ⟨⟨hs.1.trans hr hcascaded,
              Nat.lt_of_le_of_lt (size_removeReferring_le fuel column ho s) hs.2⟩, hread⟩)
          (fun s column other hc hs hread key hkey => hread key
            (((removeReferring_shrinks fuel other s).keys column.1).subset hkey))
          ⟨.refl _, by have := hsize hsome; omega⟩
        refine ⟨hlevel _ hrest hdone, fun pk hpk t ht hstay => hlisted pk hpk t ht ?_⟩
        exact (hrest.shrinks.keys t).subset hstay

/-- A delete comes to an end: no fuel beyond the number of rows makes a difference. The rows that it
leaves stay as they are and in their order. Where equal keys are the same, it removes exactly the doomed
rows. -/
theorem deleteRows_removes {decls : List ModelDecl} (hb : Registry.build decls = .ok reg)
    (hm : m ∈ reg.models) (hpks : ∀ pk ∈ pks, pk ∈ st.keys m) {fuel : Nat} (hfuel : st.size < fuel) :
    deleteRows reg fuel st m pks = deleteRows reg (st.size + 1) st m pks ∧
    Shrinks st (deleteRows reg fuel st m pks) ∧
    (Discerned reg st → ∀ t ∈ reg.models, ∀ k ∈ st.keys t,
      k ∈ (deleteRows reg fuel st m pks).keys t ↔ ¬ Doomed reg st m pks t k) := by
  have hr := Registry.rooted_of_build hb
  refine ⟨deleteRows_fuel hm hfuel (Nat.lt_succ_self _), deleteRows_shrinks reg fuel st m pks, fun hd t ht k hk => ?_⟩
  have hstored : ∀ pk ∈ pks, Stored reg st pk := fun pk hpk => ⟨m, hm, hpks pk hpk⟩
  obtain ⟨hcascaded, hlisted⟩ := deleteRows_cascaded hr hd hm (.refl st) hfuel hstored
  have hgone : ∀ t k, Doomed reg st m pks t k → k ∉ (deleteRows reg fuel st m pks).keys t := by
    intro t k hdoomed
    induction hdoomed with
    | given ht hk _ => exact hlisted _ hk _ ht
    | @refers t owner u f k key gone hc hrow hreads hu _ ih =>
        obtain ⟨ht, hk⟩ := gone.mem_keys
        refine hcascaded.together owner (mem_referringColumns hc).1 key hrow (fun hstay => ?_) u hu
        have hread := hcascaded.answered t ht k hk ih owner f hc key hstay
        rw [hcascaded.shrinks.cell_eq hr hc hstay] at hread
        exact hread hreads
  have hwithin := deleteRows_within hr hd closed_doomed fuel hm (.refl st) hstored
    fun pk hpk t ht hk => Doomed.given ht hpk hk
  exact ⟨fun hstay hdoomed => hgone t k hdoomed hstay, hwithin t ht k hk⟩

/-! ## Folders within folders -/

/-- Folders, each within another one or on its own. -/
def folder : Model :=
  { name := "folder", parent := none, pkName := "id",
    own := [.autoKey "id", { name := "within", type := .foreignKey "folder" (some "inside"), null := true }],
    reverse := [{ name := "inside", type := .reverseForeignKey "folder" "within" }] }

/-- Folders 1 to 3, each within the one before, and a folder 4 on its own. -/
def folders : Store :=
  ⟨[("folder",
    { rows :=
        [(.int 1, [("within", .null)]), (.int 2, [("within", .int 1)]), (.int 3, [("within", .int 2)]),
          (.int 4, [("within", .null)])]
      lastId := 4 })]⟩

theorem build_folder : Registry.build [{ name := "folder", fields := folder.own }] = .ok ⟨[folder]⟩ := rfl

theorem discerned_folders : Discerned ⟨[folder]⟩ folders := by
  have hkeys : ∀ m ∈ [folder], ∀ k ∈ folders.keys m, k.isPlain := by decide
  have hcells : ∀ m ∈ [folder], ∀ f ∈ m.own, f.isForeignKey → ∀ k ∈ folders.keys m,
      cell ⟨[folder]⟩ folders m k f.name = .null ∨ (cell ⟨[folder]⟩ folders m k f.name).isPlain := by decide
  refine discerned_of_isPlain fun v hv => ?_
  rcases hv with ⟨m, hm, hk⟩ | ⟨m, hm, f, hf, hfk, k, hk, rfl⟩
  · exact .inr (hkeys m hm v hk)
  · exact hcells m hm f hf hfk k hk

theorem deleteRows_removes_folders :
    (Registry.build [{ name := "folder", fields := folder.own }] = .ok ⟨[folder]⟩ ∧ folder ∈ [folder] ∧
      (∀ pk ∈ [Value.int 1], pk ∈ folders.keys folder) ∧ folders.size < 5 ∧ Discerned ⟨[folder]⟩ folders) ∧
    deleteRows ⟨[folder]⟩ 5 folders folder [.int 1] =
      deleteRows ⟨[folder]⟩ (folders.size + 1) folders folder [.int 1] ∧
    Shrinks folders (deleteRows ⟨[folder]⟩ 5 folders folder [.int 1]) ∧
    ∀ t ∈ [folder], ∀ k ∈ folders.keys t, k ∈ (deleteRows ⟨[folder]⟩ 5 folders folder [.int 1]).keys t ↔
      ¬ Doomed ⟨[folder]⟩ folders folder [.int 1] t k := by
  have hm : folder ∈ [folder] := by decide
  have hpks : ∀ pk ∈ [Value.int 1], pk ∈ folders.keys folder := by decide
  have hfuel : folders.size < 5 := by decide
  obtain ⟨hfuel', hshrinks, hexact⟩ := deleteRows_removes build_folder hm hpks hfuel
  exact ⟨⟨build_folder, hm, hpks, hfuel, discerned_folders⟩, hfuel', hshrinks, hexact discerned_folders⟩

/-- Only the folder on its own is left. -/
example : (deleteRows ⟨[folder]⟩ 5 folders folder [.int 1]).keys folder = [.int 4] := by decide

/-! ## Keys that are equal and not the same -/

/-- Shelves under the documents `0.0`, `1` and `-0.0`, and a drawer under the first. -/
def shelves : Store :=
  ⟨[("shelf",
    { rows :=
        [(Database.zeroKey false, [("n", .int 1)]), (Database.oneKey, [("n", .int 2)]),
          (Database.zeroKey true, [("n", .int 3)])]
      lastId := 0 }),
    ("drawer", { rows := [(Database.zeroKey false, [("c", .int 5)])], lastId := 0 })]⟩

/-- Deleting the shelf `-0.0` takes the drawer `0.0` along, which is the sole one. -/
theorem deleteRows_takes_sole_drawer :
    Registry.build Database.furniture = .ok ⟨[Database.shelf, Database.drawer]⟩ ∧
    (∀ pk ∈ [Database.zeroKey true], pk ∈ shelves.keys Database.shelf) ∧
    Database.zeroKey false ∈ shelves.keys Database.drawer ∧
    ¬ Doomed ⟨[Database.shelf, Database.drawer]⟩ shelves Database.shelf [Database.zeroKey true]
      Database.drawer (Database.zeroKey false) ∧
    Database.zeroKey false ∉ (deleteRows ⟨[Database.shelf, Database.drawer]⟩ (shelves.size + 1) shelves
      Database.shelf [Database.zeroKey true]).keys Database.drawer := by
  have hnone : ∀ m ∈ [Database.shelf, Database.drawer], ∀ f ∈ m.own, ¬ f.isForeignKey := by decide
  refine ⟨Database.build_furniture, by decide, by decide, fun hdoomed => ?_, by decide⟩
  cases hdoomed with
  | given _ listed _ => exact absurd listed (by decide)
  | refers _ column _ _ _ _ =>
      obtain ⟨ho, hf, hfk⟩ := mem_referringColumns column
      exact hnone _ ho _ hf hfk

end RecordMapper.Store
