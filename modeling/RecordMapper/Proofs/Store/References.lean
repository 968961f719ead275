import RecordMapper.Proofs.Store.Cascades
import RecordMapper.Proofs.Store.Removals

/-!
# References — foreign keys lead to rows

A column `Aims` at a model when it holds in every row null or a key of
that model's table. A write keeps it so if the rows that it puts into a
table or writes to refer to keys (`Aims.grow`), and a delete always does:
the rows that read a lost key are lost with it (`delete_aims`).

The check of a row asks what its columns find. Where keys and references
are equal just when they are the same (`Exact`), what is found under a
reference stands under it (`refers_of_checkRow`). A primary key is not
checked for what it refers to.
-/

namespace RecordMapper.Store

variable {reg : Registry} {st st' : Store} {m owner t : Model} {f : Field} {pk k v : Value}
  {values : Record} {now : Instant}

/-- The value of a column is null or a key of a model. -/
def Refers (reg : Registry) (st : Store) (m : Model) (f : Field) (t : Model) (k : Value) : Prop :=
  cell reg st m k f.name = .null ∨ cell reg st m k f.name ∈ st.keys t

/-- A column holds null or a key of a model in every row. -/
def Aims (reg : Registry) (st : Store) (m : Model) (f : Field) (t : Model) : Prop :=
  ∀ k ∈ st.keys m, Refers reg st m f t k

theorem Aims.empty (reg : Registry) (m : Model) (f : Field) (t : Model) : Aims reg Store.empty m f t :=
  fun _ hk => by cases hk

/-- A key is equal to a key or a reference, and a reference to a key, just where the two are the same. -/
structure Exact (reg : Registry) (st : Store) : Prop where
  key : Discerned reg st
  reference : ∀ v, Referred reg st v → ∀ k, Stored reg st k → v.equiv k → v = k

/-- Booleans, integers, texts and their like are equal to themselves alone. -/
theorem exact_of_isPlain (h : ∀ k, Stored reg st k → k.isPlain) : Exact reg st where
  key _ hk _ _ := Value.equiv_iff_of_isPlain_left (h _ hk)
  reference _ _ _ hk hequiv := (Value.equiv_iff_of_isPlain (h _ hk)).mp hequiv

/-- What is found under a reference stands under it. -/
theorem mem_keys_of_found (he : Exact reg st) (hv : Referred reg st v) (ht : t ∈ reg.models)
    (h : st.contains t v = true) : v ∈ st.keys t := by
  obtain ⟨row, hrow⟩ := Option.isSome_iff_exists.mp h
  have hseat : Keyed.seat (st.table t).rows v ∈ st.keys t := Keyed.seat_mem_of_get? hrow
  rcases Keyed.seat_eq_or_sole (st.table t).rows v with hs | ⟨_, hequiv⟩
  · exact hs ▸ hseat
  · exact he.reference v hv _ ⟨t, ht, hseat⟩ hequiv ▸ hseat

/-- A column that was checked holds null or what its target finds. -/
theorem checkCell_found (h : checkCell reg st m k f = .ok ()) (hp : f.primaryKey = false)
    (hfk : f.isForeignKey) (hto : reg.related m f = .ok t) :
    cell reg st m k f.name = .null ∨ st.contains t (cell reg st m k f.name) = true := by
  rcases checkCell_eq_ok_iff.mp h with hkey | ⟨hnull, _⟩ | ⟨_, _, hfound⟩
  · rw [hp] at hkey
    cases hkey
  · exact .inl (Value.isNull_iff.mp hnull)
  · obtain ⟨t', ht', hcontains⟩ := hfound hfk
    obtain rfl : t = t' := Except.ok.inj (hto.symm.trans ht')
    exact .inr hcontains

/-! ## Columns of a built registry -/

section Columns

variable (hr : reg.Rooted) (hm : m ∈ reg.models) (hf : f ∈ m.own) (hfk : f.isForeignKey) (ht : t ∈ reg.models)
  (hto : f.type.relatedModel? = some t.name)

include hr ht hto in
theorem related_of_name : reg.related m f = .ok t := by
  rw [Registry.related, hto]
  show reg.model t.name = .ok t
  rw [Registry.model, hr.find?_name ht]

include hm hf hfk in
theorem referred_cell (hk : k ∈ st.keys m) : Referred reg st (cell reg st m k f.name) :=
  ⟨m, hm, f, hf, hfk, k, hk, rfl⟩

include hm hf hfk ht in
theorem refers_of_found (he : Exact reg st) (hk : k ∈ st.keys m)
    (h : cell reg st m k f.name = .null ∨ st.contains t (cell reg st m k f.name) = true) :
    Refers reg st m f t k :=
  h.imp_right fun hfound => mem_keys_of_found he (referred_cell hm hf hfk hk) ht hfound

include hr hf hfk ht hto in
/-- In a row that was checked, every column but that of a primary key holds null or what its target
finds. -/
theorem found_of_checkRow (hp : f.primaryKey = false) (h : checkRow reg st owner k = .ok ())
    (hl : m ∈ reg.lineage owner) :
    cell reg st m k f.name = .null ∨ st.contains t (cell reg st m k f.name) = true := by
  have hlevel := Outcome.forM_eq_ok.mp h m hl
  have hcolumn := Outcome.forM_eq_ok.mp hlevel f (mem_localColumns hf (isConcrete_of_isForeignKey hfk))
  exact checkCell_found hcolumn hp hfk (related_of_name hr ht hto)

/-! ## Writes -/

include hr hm hf hfk in
/-- A column goes on to lead to keys if those stay, and the rows do that are not as they were. -/
theorem Aims.grow (h : Aims reg st m f t) (hkeys : st.keys t ⊆ st'.keys t)
    (hrows : ∀ k ∈ st'.keys m, (k ∈ st.keys m ∧ st'.row? m k = st.row? m k) ∨ Refers reg st' m f t k) :
    Aims reg st' m f t := by
  intro k hk
  rcases hrows k hk with ⟨hold, hrow⟩ | hnew
  · rw [Refers, cell_congr hr hm hf (isConcrete_of_isForeignKey hfk) hrow]
    exact (h k hold).imp_right fun hmem => hkeys hmem
  · exact hnew

include hr hm hf hfk in
theorem insert_aims (ho : owner ∈ reg.models) (h : Aims reg st m f t)
    (hinsert : insert reg now st owner values = .ok (pk, st'))
    (hnew : m ∈ reg.lineage owner → Refers reg st' m f t pk) : Aims reg st' m f t := by
  refine h.grow hr hm hf hfk (keys_subset_insert hinsert t) fun k hk => ?_
  rcases insert_row_cases hr ho hinsert hm hk with hold | ⟨rfl, hl⟩
  · exact .inl hold
  · exact .inr (hnew hl)

include hr hm hf hfk in
theorem insertChild_aims (ho : owner ∈ reg.models) (h : Aims reg st m f t)
    (hinsert : insertChild reg now st owner values = .ok st')
    (hnew : ∀ pk, m = owner → checkRow reg st' owner pk = .ok () → pk ∈ st'.keys m → Refers reg st' m f t pk) :
    Aims reg st' m f t := by
  refine h.grow hr hm hf hfk (keys_subset_insertChild hinsert t) fun k hk => ?_
  obtain ⟨pk, _, _, _, _, _, rfl, hcheck⟩ := insertChild_eq_ok hinsert
  rcases setRow_row_cases hr ho hm hk with hold | ⟨rfl, rfl⟩
  · exact .inl hold
  · exact .inr (hnew k rfl hcheck hk)

include hr hm hf hfk ht hto in
/-- A row that answers to a checked key refers to keys, as it did before if its column is its key. -/
theorem refers_of_seat (hp : f.primaryKey = false) (he : Exact reg st') (h : Refers reg st m f t k)
    (hkeys : st.keys t ⊆ st'.keys t) (hk : k ∈ st'.keys m) (hcheck : checkRow reg st' owner pk = .ok ())
    (hl : m ∈ reg.lineage owner) (hseat : k = Keyed.seat (st'.table m).rows pk) : Refers reg st' m f t k := by
  have hc := isConcrete_of_isForeignKey hfk
  by_cases hname : f.name == "pk" || f.name == m.pkName
  · rw [Refers, cell_of_own hr hm hf hc, if_pos hname] at h ⊢
    exact h.imp_right fun hmem => hkeys hmem
  · have hrow : st'.row? m k = st'.row? m pk := by
      rw [hseat] at hk ⊢
      exact row?_seat hk
    have hcell : cell reg st' m k f.name = cell reg st' m pk f.name := by
      rw [cell_of_own hr hm hf hc, cell_of_own hr hm hf hc, if_neg hname, if_neg hname, hrow]
    refine refers_of_found hm hf hfk ht he hk ?_
    rw [hcell]
    exact found_of_checkRow hr hf hfk ht hto hp hcheck hl

include hr hm hf hfk ht hto in
theorem update_aims {qs : Queryset} (ho : qs.model ∈ reg.models) (he : Exact reg st')
    (hp : f.primaryKey = false) (h : Aims reg st m f t) {n : Nat}
    (hupdate : update reg st qs values = .ok (n, st')) : Aims reg st' m f t := by
  have hkeys := keys_subset_update hupdate t
  obtain ⟨pks, _, hst', hchecks, _⟩ := update_eq_ok hupdate
  have hover := update_overwrites hr ho st pks values
  rw [← hst'] at hover
  refine h.grow hr hm hf hfk hkeys fun k hk => ?_
  have hold : k ∈ st.keys m := hover.keys m hm ▸ hk
  rcases hover.row m hm k hold with ⟨hl, pk, hpk, hseat⟩ | hrow
  · have hseat' := hseat.trans (Keyed.seat_congr (hover.keys m hm).symm pk)
    exact .inr (refers_of_seat hr hm hf hfk ht hto hp he (h k hold) hkeys hk (hchecks pk hpk) hl hseat')
  · exact .inl ⟨hold, hrow⟩

/-- The column of a primary key leads to keys when the keys are keys of its target. -/
theorem aims_key_iff (hname : f.name = m.pkName) :
    Aims reg st m f t ↔ ∀ k ∈ st.keys m, k = .null ∨ k ∈ st.keys t := by
  simp only [Aims, Refers, hname, cell_pkName]

include hr hm in
theorem update_aims_key {qs : Queryset} (ho : qs.model ∈ reg.models) (hname : f.name = m.pkName)
    (h : Aims reg st m f t) {n : Nat} (hupdate : update reg st qs values = .ok (n, st')) :
    Aims reg st' m f t := by
  have hkeys := keys_subset_update hupdate t
  obtain ⟨pks, _, hst', _, _⟩ := update_eq_ok hupdate
  have hover := update_overwrites hr ho st pks values
  rw [← hst'] at hover
  rw [aims_key_iff hname] at h ⊢
  rw [hover.keys m hm]
  exact fun k hk => (h k hk).imp_right fun hmem => hkeys hmem

/-! ## Deletes -/

include hr hm hf hfk ht hto in
theorem mem_referringColumns_of_name : (m, f) ∈ referringColumns reg (family reg t) := by
  refine List.mem_flatMap.mpr ⟨m, hm, List.mem_map.mpr ⟨f, List.mem_filter.mpr ⟨hf, ?_⟩, rfl⟩⟩
  have hmember : (family reg t).any (·.name == t.name) = true :=
    List.any_eq_true.mpr ⟨t, self_mem_family hr ht, beq_self_eq_true t.name⟩
  rw [hfk, hto]
  exact hmember

include hr hm hf hfk ht hto in
/-- A row that stays after a delete goes on to refer to keys: the rows that read a lost key are lost with it. -/
theorem delete_refers {qs : Queryset} (ho : qs.model ∈ reg.models) (hd : Discerned reg st)
    (h : Refers reg st m f t k) {n : Nat} (hdelete : delete reg st qs = .ok (n, st')) (hk : k ∈ st'.keys m) :
    Refers reg st' m f t k := by
  obtain ⟨pks, hpks, _, rfl⟩ := delete_eq_ok hdelete
  have hstored : ∀ pk ∈ pks, Stored reg st pk := fun pk hpk => ⟨_, ho, (select_subperm hpks).subset hpk⟩
  obtain ⟨hcascaded, -⟩ := deleteRows_cascaded hr hd ho (.refl st) (Nat.lt_succ_self st.size) hstored
  generalize deleteRows reg (st.size + 1) st qs.model pks = after at hcascaded hk
  have hcolumn := mem_referringColumns_of_name hr hm hf hfk ht hto
  have hsame := hcascaded.shrinks.cell_eq hr hcolumn hk
  rw [Refers, hsame]
  refine h.imp_right fun hmem => ?_
  by_contra hlost
  exact hcascaded.answered t ht _ hmem hlost m f hcolumn k hk hsame

include hr hm hf hfk ht hto in
theorem delete_aims {qs : Queryset} (ho : qs.model ∈ reg.models) (hd : Discerned reg st)
    (h : Aims reg st m f t) {n : Nat} (hdelete : delete reg st qs = .ok (n, st')) : Aims reg st' m f t :=
  fun k hk => delete_refers hr hm hf hfk ht hto ho hd
    (h k (((delete_shrinks hdelete).keys m).subset hk)) hdelete hk

end Columns

end RecordMapper.Store
