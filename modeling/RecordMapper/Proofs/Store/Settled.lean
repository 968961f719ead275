import RecordMapper.Proofs.Schema.Relations
import RecordMapper.Proofs.Store.Cells
import RecordMapper.Proofs.Store.Rewriting

/-!
# Settled relations — what is left to do once a relation was written

Writing a relation for an owner releases the rows that are not listed and
adds those that are missing. Once no row of the owner is beside those
listed (`LinksOnly`, `RefersOnly`) and each of them is there, both find
nothing to do.

No row belongs to an owner that was not there before, since every
reference led to a row.
-/

namespace RecordMapper.Store

variable {decls : List ModelDecl} {reg : Registry} {st st' st'' : Store} {m through related : Model} {own other field : String}
  {f g : Field} {pk k y : Value} {keys : List Value} {qs : Queryset} {n : Nat} {now : Instant}

/-! ## Rows that stand -/

/-- A row of a model stands as it was: whatever is read from it reads the same. -/
structure Untouched (reg : Registry) (m : Model) (before after : Store) (y : Value) : Prop where
  stands : y ∈ after.keys m
  cells : ∀ name, cell reg after m y name = cell reg before m y name

theorem Untouched.trans (h : Untouched reg m st st' y) (h' : Untouched reg m st' st'' y) : Untouched reg m st st'' y where
  stands := h'.stands
  cells name := (h'.cells name).trans (h.cells name)

/-- A row that stands after a delete stands as it was. -/
theorem untouched_of_delete (hr : reg.Rooted) (ho : Orderly reg st) (hm : m ∈ reg.models) (hqs : qs.model ∈ reg.models)
    (h : delete reg st qs = .ok (n, st')) (hy : y ∈ st'.keys m) : Untouched reg m st st' y :=
  ⟨hy, cell_congr_lineage fun level hl =>
    (delete_shrinks h).row level y ((ho.delete hr hqs h).inherits m hm level hl hy)⟩

/-! ## Links -/

/-- The rows of a through model link an owner to none but the listed keys. -/
def LinksOnly (reg : Registry) (st : Store) (through : Model) (own other : String) (pk : Value) (keys : List Value) :
    Prop :=
  ∀ y ∈ st.keys through, (Lookup.exact pk).holds (cell reg st through y own) = true →
    (Lookup.oneOf keys).holds (cell reg st through y other) = true

/-- Some row of a through model links an owner to a key. -/
def LinksTo (reg : Registry) (st : Store) (through : Model) (own other : String) (pk k : Value) : Prop :=
  ∃ y ∈ st.keys through, (Lookup.exact pk).holds (cell reg st through y own) = true ∧ cell reg st through y other = k

/-- The rows of an owner that link it to keys that are not listed. -/
def unlistedLinks (through : Model) (own other : String) (pk : Value) (keys : List Value) : Queryset :=
  (RelationWrite.throughRows through own pk).exclude (.test other (.oneOf keys))

section Links

variable (hread : reg.Readable) (hb : Registry.build decls = .ok reg) (hthrough : through ∈ reg.models)
  (hown : reg.field? through own = some f) (hfk : f.isForeignKey) (hother : reg.field? through other = some g)
  (hfk' : g.isForeignKey)
include hread hb hthrough hown hfk hother hfk'

theorem select_unlistedLinks (st : Store) (pk : Value) (keys : List Value) :
    select reg st (unlistedLinks through own other pk keys) = .ok ((st.keys through).filter fun y =>
      (Lookup.exact pk).holds (cell reg st through y own) && !(Lookup.oneOf keys).holds (cell reg st through y other)) :=
  select_exclude (hread.reads hb hthrough hown (isConcrete_of_isForeignKey hfk))
    (hread.reads hb hthrough hother (isConcrete_of_isForeignKey hfk')) ..

/-- Where only listed keys are linked no row is deleted. -/
theorem delete_of_linksOnly (h : LinksOnly reg st through own other pk keys) :
    delete reg st (unlistedLinks through own other pk keys) = .ok (0, st) := by
  have hnone : (st.keys through).filter (fun y => (Lookup.exact pk).holds (cell reg st through y own) &&
      !(Lookup.oneOf keys).holds (cell reg st through y other)) = [] := by
    refine List.filter_eq_nil_iff.mpr fun y hy => ?_
    rw [Bool.and_eq_true, Bool.not_eq_true', not_and, Bool.not_eq_false]
    exact h y hy
  rw [delete, select_unlistedLinks hread hb hthrough hown hfk hother hfk', hnone]
  rfl

/-- After the rows for other keys are deleted only listed keys are linked. -/
theorem linksOnly_of_delete (ho : Orderly reg st)
    (h : delete reg st (unlistedLinks through own other pk keys) = .ok (n, st')) :
    LinksOnly reg st' through own other pk keys := by
  have hr := Registry.rooted_of_build hb
  intro y hy howned
  -- The row is as it was, and would have been deleted for a key that is not listed.
  have hsame := untouched_of_delete hr ho hthrough hthrough h hy
  rw [hsame.cells] at howned ⊢
  obtain ⟨pks, hselect, _, hst'⟩ := delete_eq_ok h
  rw [select_unlistedLinks hread hb hthrough hown hfk hother hfk'] at hselect
  cases hselect
  by_contra hunlisted
  have hstored : ∀ y ∈ (st.keys through).filter (fun y => (Lookup.exact pk).holds (cell reg st through y own) &&
      !(Lookup.oneOf keys).holds (cell reg st through y other)), Stored reg st y := fun y hy =>
    ⟨through, hthrough, (List.mem_filter.mp hy).1⟩
  obtain ⟨-, hgone⟩ := deleteRows_cascaded hr ho.exact.key hthrough (.refl st) (Nat.lt_succ_self st.size) hstored
  have hold : y ∈ st.keys through := ((delete_shrinks h).keys through).subset hy
  refine hgone y (List.mem_filter.mpr ⟨hold, ?_⟩) through (self_mem_family hr hthrough) ?_
  · rw [howned, Bool.eq_false_iff.mpr hunlisted]
    rfl
  · exact hst' ▸ hy

/-- A key that the rows of an owner link is among those that they hold. -/
theorem mem_present_iff {rows : List Record}
    (h : st.fetch reg (RelationWrite.throughRows through own pk) [.ofPath other] = .ok rows) :
    k ∈ rows.filterMap (fun row => row.get? other) ↔ LinksTo reg st through own other pk k := by
  rw [fetch_throughRows (hread.reads hb hthrough hown (isConcrete_of_isForeignKey hfk))
    (hread.reads hb hthrough hother (isConcrete_of_isForeignKey hfk'))] at h
  cases h
  simp only [List.filterMap_map, List.mem_filterMap, Function.comp_apply, Record.get?, List.lookup_cons_self,
    Option.some.injEq, List.mem_filter, and_assoc, LinksTo]

end Links

/-- An insert leaves the rows that stand at all levels of a model. -/
theorem cell_insert_of_mem (hr : reg.Rooted) (hm : m ∈ reg.models) (hthrough : through ∈ reg.models)
    (hi : Inherits reg st) {values : Record} (h : insert reg now st m values = .ok (k, st')) (hy : y ∈ st.keys through)
    (name : String) : cell reg st' through y name = cell reg st through y name := by
  refine cell_congr_lineage (fun level hl => ?_) name
  have hlm := hr.mem_models hthrough hl
  have hold := hi through hthrough level hl hy
  rcases insert_row_cases hr hm h hlm (keys_subset_insert h level hold) with ⟨_, hrow⟩ | ⟨rfl, hlevel⟩
  · exact hrow
  · -- The key would have stood at the top.
    obtain ⟨_, _, _, _, hnew, _⟩ := insert_eq_ok h
    have htop := hi through hthrough _ (reg.rootOf_mem_lineage through) hy
    rw [← hr.rootOf_of_mem_lineage hm hlevel, hr.rootOf_of_mem_lineage hthrough hl, contains_of_mem htop] at hnew
    cases hnew

theorem LinksTo.insert (hr : reg.Rooted) (hm : m ∈ reg.models) (hthrough : through ∈ reg.models) (hi : Inherits reg st)
    {values : Record} (h : insert reg now st m values = .ok (y, st')) (hlinks : LinksTo reg st through own other pk k) :
    LinksTo reg st' through own other pk k := by
  obtain ⟨z, hz, howned, hkey⟩ := hlinks
  have hsame := cell_insert_of_mem hr hm hthrough hi h hz
  exact ⟨z, keys_subset_insert h through hz, (hsame own).symm ▸ howned, (hsame other).trans hkey⟩

/-- Two columns of one row. -/
theorem ofList_pair (hne : own ≠ other) (v w : Value) : Record.ofList [(own, v), (other, w)] = [(own, v), (other, w)] := by
  simp [Record.ofList, entriesOf, insertEntry, hne]

section NewLink

variable (hb : Registry.build decls = .ok reg) (hthrough : through ∈ reg.models)
  (hown : reg.field? through own = some f) (hfk : f.isForeignKey) (hother : reg.field? through other = some g)
  (hfk' : g.isForeignKey) (hapart : through.fieldName own ≠ through.fieldName other) (hpk : pk.isPlain) (hk : k.isNull = false)
  (h : insert reg now st through (Record.ofList [(own, pk), (other, k)]) = .ok (y, st'))
include hb hthrough hown hfk hother hfk' hapart hpk hk h

/-- A new row links the owner to the key it is inserted for. -/
theorem cells_newLink : cell reg st' through y own = pk ∧ cell reg st' through y other = k := by
  have hne : own ≠ other := fun he => hapart (he ▸ rfl)
  rw [ofList_pair hne] at h
  constructor
  · refine cell_insert_named hb hthrough hown (isConcrete_of_isForeignKey hfk) h ?_ (Value.isNull_of_isPlain hpk) ?_
    · rw [Record.get?, List.lookup_cons_self]
    · intro e he hname
      rcases List.mem_cons.mp he with rfl | he
      · rfl
      · rw [List.mem_singleton.mp he] at hname
        exact absurd hname.symm hapart
  · refine cell_insert_named hb hthrough hother (isConcrete_of_isForeignKey hfk') h ?_ hk ?_
    · rw [Record.get?, List.lookup_cons, beq_eq_false_iff_ne.mpr hne.symm, List.lookup_cons_self]
    · intro e he hname
      rcases List.mem_cons.mp he with rfl | he
      · exact absurd hname hapart
      · rw [List.mem_singleton.mp he]

theorem linksTo_newLink : LinksTo reg st' through own other pk k := by
  obtain ⟨hcell, hcell'⟩ := cells_newLink hb hthrough hown hfk hother hfk' hapart hpk hk h
  refine ⟨y, mem_keys_insert (Registry.rooted_of_build hb) hthrough h (reg.self_mem_lineage through), ?_, hcell'⟩
  rw [hcell]
  exact holds_exact_of_isPlain hpk

/-- Where all keys are plain, a new row links to one of them. -/
theorem isPlain_of_newLink (hplain : PlainKeys reg st') : k.isPlain := by
  have hr := Registry.rooted_of_build hb
  have hconcrete := isConcrete_of_isForeignKey hfk'
  obtain ⟨_, hcell⟩ := cells_newLink hb hthrough hown hfk hother hfk' hapart hpk hk h
  have hy : ∀ level ∈ reg.lineage through, y ∈ st'.keys level := fun level hl => mem_keys_insert hr hthrough h hl
  by_cases hname : through.fieldName other = through.pkName
  · rw [← cell_fieldName, hname, cell_pkName] at hcell
    exact hcell ▸ hplain through hthrough y (hy through (reg.self_mem_lineage through))
  · obtain ⟨level, hl, hg, howner⟩ := exists_level_of_field? hb hthrough hother hconcrete
    obtain ⟨rfl, howner⟩ := howner hname
    have hlm := hr.mem_models hthrough hl
    have hne := fieldName_ne_pkName_iff.mp hname
    have hnotKey : g.primaryKey = false := primaryKey_of_ne_key hb hlm (pkName_of_mem_lineage hb hthrough hl ▸ hne.2) g
      (mem_localColumns hg hconcrete) rfl
    rw [cell_of_owner hb hthrough hl hg hconcrete hne howner] at hcell
    obtain ⟨_, _, _, _, _, _, hcheck⟩ := insert_eq_ok h
    have hchecked := Outcome.forM_eq_ok.mp (Outcome.forM_eq_ok.mp hcheck level hl) g (mem_localColumns hg hconcrete)
    rcases checkCell_eq_ok_iff.mp hchecked with hprimary | ⟨hnull, _⟩ | ⟨_, _, hfound⟩
    · rw [hnotKey] at hprimary
      cases hprimary
    · rw [hcell, hk] at hnull
      cases hnull
    · obtain ⟨t, ht, hcontains⟩ := hfound hfk'
      have htm := (target_of_related ht).1
      exact hcell ▸ hplain t htm _ (mem_keys_of_found hplain.exact (referred_cell hlm hg hfk' (hy level hl)) htm hcontains)

theorem linksOnly_newLink (hi : Inherits reg st) (hlisted : k ∈ keys) (hplain : k.isPlain)
    (honly : LinksOnly reg st through own other pk keys) : LinksOnly reg st' through own other pk keys := by
  have hr := Registry.rooted_of_build hb
  obtain ⟨_, hcell⟩ := cells_newLink hb hthrough hown hfk hother hfk' hapart hpk hk h
  intro z hz howned
  rcases insert_row_cases hr hthrough h hthrough hz with ⟨hold, _⟩ | ⟨rfl, _⟩
  · have hsame := cell_insert_of_mem hr hthrough hthrough hi h hold
    rw [hsame] at howned ⊢
    exact honly z hold howned
  · rw [hcell]
    exact holds_oneOf_of_isPlain hlisted hplain

end NewLink

/-! ## Updates of one column -/

section Columns

variable (hb : Registry.build decls = .ok reg) (hrelated : related ∈ reg.models) (hf : f ∈ related.own)
  (hconcrete : f.isConcrete)
include hb hrelated hf hconcrete

/-- The rows that an update selects carry what it writes. -/
theorem carries_update {pks : List Value} (hqs : qs.model = related) (hselect : select reg st qs = .ok pks)
    (h : update reg st qs [(f.name, v)] = .ok (n, st')) (hy : y ∈ pks) : Carries related y (f.name, v) st' := by
  subst hqs
  have hr := Registry.rooted_of_build hb
  obtain ⟨pks', hselect', hst', _⟩ := update_eq_ok h
  obtain rfl : pks = pks' := Except.ok.inj (hselect.symm.trans hselect')
  have hst' : st' = overwrite reg qs.model [(f.name, v)] pks st := hst'
  rw [hst']
  exact carries_overwritten hr hrelated hrelated ((select_subperm hselect).subset hy) hy (List.mem_singleton.mpr rfl)
    (columnOwner?_of_own hr hrelated hf hconcrete) fun e he _ => congrArg Prod.snd (List.mem_singleton.mp he)

/-- An update writes a column of the rows it selects, and leaves it in the others. -/
theorem cell_update {pks : List Value} (hqs : qs.model = related) (hselect : select reg st qs = .ok pks)
    (h : update reg st qs [(f.name, v)] = .ok (n, st')) (hy : y ∈ st.keys related) :
    cell reg st' related y f.name = if y ∈ pks then v else cell reg st related y f.name := by
  have hr := Registry.rooted_of_build hb
  split
  · rename_i hyp
    have hne := (updatable_of_update h).ne_key (List.mem_singleton.mpr rfl)
    exact (carries_update hb hrelated hf hconcrete hqs hselect h hyp).cell_eq hr hrelated hf hconcrete (hqs ▸ hne)
  · rename_i hyp
    subst hqs
    obtain ⟨pks', hselect', hst', _⟩ := update_eq_ok h
    obtain rfl : pks = pks' := Except.ok.inj (hselect.symm.trans hselect')
    have hrow := row?_overwrite hr hrelated (select_subperm hselect).subset hy [(f.name, v)] hyp
    have hst' : st' = overwrite reg qs.model [(f.name, v)] pks st := hst'
    exact cell_congr hr hrelated hf hconcrete (hst' ▸ hrow)

omit hf hconcrete in
theorem keys_update (hqs : qs.model = related) (h : update reg st qs values = .ok (n, st')) :
    st'.keys related = st.keys related := by
  obtain ⟨pks, _, rfl, _⟩ := update_eq_ok h
  exact (update_overwrites (Registry.rooted_of_build hb) (hqs ▸ hrelated) st pks _).keys related hrelated

end Columns

/-! ## References -/

/-- Columns of one table are written there alone. -/
theorem beside_update_of_owner {qs : Queryset} {values : Record} (hr : reg.Rooted) (hm : m ∈ reg.models)
    (hrelated : related ∈ reg.models) (hne : m ≠ related)
    (howner : ∀ e ∈ values, columnOwner? reg qs.model e.1 = some related)
    (h : update reg st qs values = .ok (n, st')) : Beside m st st' := by
  obtain ⟨pks, _, rfl, _⟩ := update_eq_ok h
  refine List.foldlRecOn (motive := fun (after : Store) => Beside m st after) pks _ (.refl st) fun after hafter k _ => ?_
  refine List.foldlRecOn (motive := fun (after : Store) => Beside m st after) values _ hafter fun after hafter e he => ?_
  refine hafter.trans ?_
  simp only [setCell, howner e he]
  split
  · exact table_setRow_of_ne hr hrelated hm hne ..
  · rfl

/-- No row of a model refers to an owner unless it is listed. -/
def RefersOnly (reg : Registry) (st : Store) (related : Model) (field : String) (pk : Value) (keys : List Value) : Prop :=
  ∀ y ∈ st.keys related, (Lookup.exact pk).holds (cell reg st related y field) = true → (Lookup.oneOf keys).holds y = true

/-- The listed rows of a model refer to an owner, as they may. -/
structure RefersAll (reg : Registry) (st : Store) (related : Model) (field : String) (pk : Value) (keys : List Value) :
    Prop where
  updatable : Updatable reg related [(field, pk)]
  carries : ∀ y ∈ st.keys related, (Lookup.oneOf keys).holds y = true → Carries related y (field, pk) st
  checked : ∀ y ∈ st.keys related, (Lookup.oneOf keys).holds y = true → checkRow reg st related y = .ok ()

/-! ## New owners -/

/-- A row of an intact store does not belong to an owner that is not there. -/
theorem not_holds_of_missing (hs : Intact reg st) (hm : m ∈ reg.models) (hmissing : pk ∉ st.keys m) (hpk : pk.isPlain)
    (hrelated : related ∈ reg.models) (hf : f ∈ related.own) (hfk : f.isForeignKey)
    (hto : f.type.relatedModel? = some m.name) (hy : y ∈ st.keys related) :
    (Lookup.exact pk).holds (cell reg st related y f.name) = false := by
  rw [holds_exact hpk, Bool.eq_false_iff]
  intro hequal
  rcases hs.refers related hrelated f hf (isConcrete_of_isForeignKey hfk) m hm hto y hy with hnull | hkey
  · rw [hnull, Value.numEq_iff_of_isPlain (.inl rfl) hpk] at hequal
    exact Value.ne_null_of_isPlain hpk hequal.symm
  · rw [Value.numEq_iff_of_isPlain (.inr (hs.plain m hm _ hkey)) hpk] at hequal
    exact hmissing (hequal ▸ hkey)

/-- Where other tables are as they were before a new owner, nothing is linked to it. -/
theorem linksOnly_of_missing (hb : Registry.build decls = .ok reg) (hs : Intact reg st) (hi : Inherits reg st)
    (hm : m ∈ reg.models) (hmissing : pk ∉ st.keys m) (hpk : pk.isPlain) (hthrough : through ∈ reg.models)
    (hown : reg.field? through own = some f) (hfk : f.isForeignKey) (hto : f.type.relatedModel? = some m.name)
    (hbeside : ∀ level ∈ reg.lineage through, Beside level st st') :
    LinksOnly reg st' through own other pk keys := by
  have hr := Registry.rooted_of_build hb
  intro y hy howned
  have hold : y ∈ st.keys through := by
    rwa [Store.keys, ← hbeside through (reg.self_mem_lineage through)]
  obtain ⟨level, hl, hf, hcell⟩ := exists_cell_of_field? hb hthrough hown (isConcrete_of_isForeignKey hfk)
  rw [cell_congr_lineage (fun level hl => row?_congr (congrArg Table.rows (hbeside level hl)) y), hcell,
    not_holds_of_missing hs hm hmissing hpk (hr.mem_models hthrough hl) hf hfk hto (hi through hthrough level hl hold)]
    at howned
  cases howned

/-- A new owner has no rows yet, unless its own row refers to itself. -/
theorem refersOnly_of_insert (hr : reg.Rooted) (hs : Intact reg st) (hm : m ∈ reg.models) (hmissing : pk ∉ st.keys m)
    (hpk : pk.isPlain) {values : Record} (h : insert reg now st m values = .ok (pk, st')) (hrelated : related ∈ reg.models)
    (hf : f ∈ related.own) (hfk : f.isForeignKey) (hto : f.type.relatedModel? = some m.name)
    (hself : related ∈ reg.lineage m → (Lookup.exact pk).holds (cell reg st' related pk f.name) = false) :
    RefersOnly reg st' related f.name pk keys := by
  intro y hy howned
  rcases insert_row_cases hr hm h hrelated hy with ⟨hold, hrow⟩ | ⟨rfl, hl⟩
  · rw [cell_congr hr hrelated hf (isConcrete_of_isForeignKey hfk) hrow,
      not_holds_of_missing hs hm hmissing hpk hrelated hf hfk hto hold] at howned
    cases howned
  · rw [hself hl] at howned
    cases howned

section References

variable (hread : reg.Readable) (hb : Registry.build decls = .ok reg) (hrelated : related ∈ reg.models)
  (hf : f ∈ related.own) (hfk : f.isForeignKey)
include hread hb hrelated hf hfk

theorem select_otherRows (st : Store) (pk : Value) (keys : List Value) :
    select reg st (RelationWrite.otherRows related f.name pk keys) = .ok ((st.keys related).filter fun y =>
      (Lookup.exact pk).holds (cell reg st related y f.name) && !(Lookup.oneOf keys).holds y) := by
  rw [RelationWrite.otherRows, select_exclude (hread.reads hb hrelated (hread.field?_own hb hrelated hf)
    (isConcrete_of_isForeignKey hfk)) (hread.reads_key hb hrelated)]
  simp only [cell_pkName]

omit hf hfk in
theorem select_listed (st : Store) (keys : List Value) :
    select reg st ((Queryset.all related).pkIn keys) = .ok ((st.keys related).filter (Lookup.oneOf keys).holds) := by
  refine select_keys (fun y => ?_) keys
  have hkey := hread.reads_key hb hrelated st y
  rwa [cell_pkName] at hkey

/-- A foreign key beside the primary key can be updated. -/
theorem updatable_foreignKey (hne : f.name ≠ related.pkName) (v : Value) : Updatable reg related [(f.name, v)] := by
  refine updatable_of_columns fun e he => ?_
  rw [List.mem_singleton.mp he]
  exact ⟨⟨fun hpk => hne (Eq.trans hpk (hread.reserved related hrelated f hf hpk).symm), hne⟩, f,
    hread.field?_own hb hrelated hf, isConcrete_of_isForeignKey hfk⟩

/-- Where no row refers to an owner unless it is listed, none is released. -/
theorem update_of_refersOnly (hne : f.name ≠ related.pkName) (h : RefersOnly reg st related f.name pk keys) :
    update reg st (RelationWrite.otherRows related f.name pk keys) [(f.name, .null)] = .ok (0, st) := by
  have hnone : (st.keys related).filter (fun y => (Lookup.exact pk).holds (cell reg st related y f.name) &&
      !(Lookup.oneOf keys).holds y) = [] := by
    refine List.filter_eq_nil_iff.mpr fun y hy => ?_
    rw [Bool.and_eq_true, Bool.not_eq_true', not_and, Bool.not_eq_false]
    exact h y hy
  have hselect := select_otherRows hread hb hrelated hf hfk st pk keys
  rw [hnone] at hselect
  exact update_of_carries (updatable_foreignKey hread hb hrelated hf hfk hne _) hselect
    (fun _ h => absurd h List.not_mem_nil) fun _ h => absurd h List.not_mem_nil

omit hfk in
/-- Where the listed rows refer to an owner, pointing them at it changes nothing. -/
theorem update_of_refersAll (hconcrete : f.isConcrete) (h : RefersAll reg st related f.name pk keys) :
    update reg st ((Queryset.all related).pkIn keys) [(f.name, pk)] =
      .ok (((st.keys related).filter (Lookup.oneOf keys).holds).length, st) := by
  have howner := columnOwner?_of_own (Registry.rooted_of_build hb) hrelated hf hconcrete
  refine update_of_carries h.updatable (select_listed hread hb hrelated st keys) (fun y hy e he => ?_) fun y hy => ?_
  · obtain ⟨hmem, hlisted⟩ := List.mem_filter.mp hy
    rw [List.mem_singleton.mp he]
    exact ⟨related, howner, h.carries y hmem hlisted⟩
  · obtain ⟨hmem, hlisted⟩ := List.mem_filter.mp hy
    exact h.checked y hmem hlisted

/-- Rows that are not listed are released. -/
theorem refersOnly_of_update (hpk : pk.isNull = false)
    (h : update reg st (RelationWrite.otherRows related f.name pk keys) [(f.name, .null)] = .ok (n, st')) :
    RefersOnly reg st' related f.name pk keys := by
  intro y hy howned
  have hold : y ∈ st.keys related := keys_update hb hrelated rfl h ▸ hy
  rw [cell_update hb hrelated hf (isConcrete_of_isForeignKey hfk) rfl (select_otherRows hread hb hrelated hf hfk st pk keys) h
    hold] at howned
  split at howned
  · rw [holds_exact_null hpk] at howned
    cases howned
  · rename_i hkept
    by_contra hunlisted
    refine hkept (List.mem_filter.mpr ⟨hold, ?_⟩)
    rw [howned, Bool.eq_false_iff.mpr hunlisted]
    rfl

/-- Rows that are listed are pointed at the owner, and no others. -/
theorem refers_of_update (h : update reg st ((Queryset.all related).pkIn keys) [(f.name, pk)] = .ok (n, st')) :
    (RefersOnly reg st related f.name pk keys → RefersOnly reg st' related f.name pk keys) ∧
      RefersAll reg st' related f.name pk keys := by
  have hconcrete := isConcrete_of_isForeignKey hfk
  have hselect := select_listed hread hb hrelated st keys
  have hkeys := keys_update hb hrelated rfl h
  have hmem : ∀ y ∈ st'.keys related, (Lookup.oneOf keys).holds y = true →
      y ∈ (st.keys related).filter (Lookup.oneOf keys).holds := fun y hy hlisted => List.mem_filter.mpr ⟨hkeys ▸ hy, hlisted⟩
  refine ⟨fun honly y hy howned => ?_, updatable_of_update h, fun y hy hlisted => ?_, fun y hy hlisted => ?_⟩
  · rw [cell_update hb hrelated hf hconcrete rfl hselect h (hkeys ▸ hy)] at howned
    split at howned
    · rename_i hyp
      exact (List.mem_filter.mp hyp).2
    · exact honly y (hkeys ▸ hy) howned
  · exact carries_update hb hrelated hf hconcrete rfl hselect h (hmem y hy hlisted)
  · obtain ⟨pks, hselect', _, hchecks, _⟩ := update_eq_ok h
    obtain rfl := Except.ok.inj (hselect'.symm.trans hselect)
    exact hchecks y (hmem y hy hlisted)

end References

end RecordMapper.Store
