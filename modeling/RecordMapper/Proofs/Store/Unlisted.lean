import RecordMapper.Proofs.Store.Settled

/-!
# Unlisted rows — what is left of the rows of an owner

A delete leaves none of the rows that it selects (`not_mem_keys_deleteRows`).
So once the rows that refer to an owner and are not listed are deleted, no
row refers to it unless it is listed (`refersOnly_of_delete`), and it stays
so as long as no row comes to refer to it (`AddsNoReferrer`): writes in
other tables and deletes bring none about.
-/

namespace RecordMapper.Store

variable {decls : List ModelDecl} {reg : Registry} {st st' st'' : Store} {m related : Model} {f : Field} {field : String}
  {pk k : Value} {keys pks : List Value}

/-! ## Rows that are selected -/

theorem eraseAll_shrinks (levels : List Model) (st : Store) (pks : List Value) :
    Shrinks st (eraseAll levels st pks).2 := by
  induction pks generalizing st with
  | nil => exact .refl st
  | cons pk rest ih =>
      rw [eraseAll]
      split
      · exact (eraseFrom_shrinks levels st pk).trans (ih _)
      · exact ih st

/-- A key is erased when its turn comes, if it has not gone with another one. -/
theorem not_mem_keys_eraseAll (hr : reg.Rooted) (hm : m ∈ reg.models) (hk : k ∈ pks) :
    k ∉ (eraseAll (family reg m) st pks).2.keys m := by
  induction pks generalizing st with
  | nil => cases hk
  | cons pk rest ih =>
      rw [eraseAll]
      rcases List.mem_cons.mp hk with rfl | hrest
      · have hnames : ((family reg m).map Model.name).Nodup := hr.names.sublist (List.filter_sublist.map _)
        have hmem := self_mem_family hr hm
        split
        · intro hstays
          have herased : k ∈ (eraseFrom (family reg m) st k).keys m := ((eraseAll_shrinks _ _ rest).keys m).subset hstays
          rw [keys, table_eraseFrom_mem st k hnames hmem] at herased
          obtain ⟨hthere, hne⟩ := Keyed.mem_keys_erase.mp herased
          exact hne (Keyed.seat_of_mem hthere).symm
        · rename_i hnone
          intro hstays
          have hthere := ((eraseAll_shrinks _ _ rest).keys m).subset hstays
          exact hnone (List.any_eq_true.mpr ⟨m, hmem, contains_of_mem hthere⟩)
      · split
        · exact ih hrest
        · exact ih hrest

/-- A delete leaves none of the rows that it is given. -/
theorem not_mem_keys_deleteRows (hr : reg.Rooted) (hm : m ∈ reg.models) (fuel : Nat) (hk : k ∈ pks) :
    k ∉ (deleteRows reg (fuel + 1) st m pks).keys m := by
  have hgone : k ∉ (eraseAll (family reg m) st pks).2.keys m := not_mem_keys_eraseAll hr hm hk
  rw [deleteRows_succ]
  split
  · exact hgone
  · refine List.foldlRecOn (motive := fun (after : Store) => k ∉ after.keys m) _ _ hgone fun after hafter column _ => ?_
    exact fun hstays => hafter (((removeReferring_shrinks fuel column after).keys m).subset hstays)

section Columns

variable (hread : reg.Readable) (hb : Registry.build decls = .ok reg) (hrelated : related ∈ reg.models)
  (hf : f ∈ related.own) (hfk : f.isForeignKey)
include hb hrelated hf hfk

include hread in
/-- Once the rows that are not listed are deleted, no row refers to the owner unless it is listed. -/
theorem refersOnly_of_delete {n : Nat}
    (h : delete reg st (RelationWrite.otherRows related f.name pk keys) = .ok (n, st')) :
    RefersOnly reg st' related f.name pk keys := by
  have hr := Registry.rooted_of_build hb
  have hshrinks := delete_shrinks h
  obtain ⟨pks, hselect, _, hst'⟩ := delete_eq_ok h
  rw [select_otherRows hread hb hrelated hf hfk] at hselect
  intro y hy howned
  -- The row is as it was, and would have been deleted if it were not listed.
  rw [cell_congr hr hrelated hf (isConcrete_of_isForeignKey hfk) (hshrinks.row related y hy)] at howned
  by_contra hunlisted
  have hselected : y ∈ pks := by
    rw [← Except.ok.inj hselect]
    refine List.mem_filter.mpr ⟨(hshrinks.keys related).subset hy, ?_⟩
    rw [howned, Bool.eq_false_iff.mpr hunlisted]
    rfl
  rw [hst'] at hy
  exact not_mem_keys_deleteRows hr hrelated st.size hselected hy

end Columns

/-! ## Rows that come to refer to an owner -/

/-- A row of a model that refers to an owner afterwards has done so before. -/
def AddsNoReferrer (reg : Registry) (related : Model) (field : String) (pk : Value) (st st' : Store) : Prop :=
  ∀ y ∈ st'.keys related, (Lookup.exact pk).holds (cell reg st' related y field) = true →
    y ∈ st.keys related ∧ (Lookup.exact pk).holds (cell reg st related y field) = true

namespace AddsNoReferrer

theorem refl (st : Store) : AddsNoReferrer reg related field pk st st := fun _ hy howned => ⟨hy, howned⟩

theorem trans (h : AddsNoReferrer reg related field pk st st') (h' : AddsNoReferrer reg related field pk st' st'') :
    AddsNoReferrer reg related field pk st st'' := by
  intro y hy howned
  obtain ⟨hy', howned'⟩ := h' y hy howned
  exact h y hy' howned'

section Columns

variable (hr : reg.Rooted) (hrelated : related ∈ reg.models) (hf : f ∈ related.own) (hfk : f.isForeignKey)
include hr hrelated hf hfk

/-- A delete brings no row about. -/
theorem of_shrinks (h : Shrinks st st') : AddsNoReferrer reg related f.name pk st st' := by
  intro y hy howned
  refine ⟨(h.keys related).subset hy, ?_⟩
  rwa [cell_congr hr hrelated hf (isConcrete_of_isForeignKey hfk) (h.row related y hy)] at howned

/-- What leaves the table of a model leaves what its rows refer to. -/
theorem of_beside (h : Beside related st st') : AddsNoReferrer reg related f.name pk st st' := by
  intro y hy howned
  have hrow : st'.row? related y = st.row? related y := row?_congr (congrArg Table.rows h) y
  rw [Store.keys, h] at hy
  rw [cell_congr hr hrelated hf (isConcrete_of_isForeignKey hfk) hrow] at howned
  exact ⟨hy, howned⟩

/-- An update of other columns leaves what a row refers to. -/
theorem of_update {qs : Queryset} {values : Record} {n : Nat} (hm : qs.model ∈ reg.models)
    (hvalues : ∀ e ∈ values, e.1 ≠ f.name) (h : update reg st qs values = .ok (n, st')) :
    AddsNoReferrer reg related f.name pk st st' := by
  obtain ⟨pks, _, hst', _⟩ := update_eq_ok h
  have hst' : st' = overwrite reg qs.model values pks st := hst'
  subst hst'
  intro y hy howned
  rw [overwrite, (update_overwrites hr hm st pks _).keys related hrelated] at hy
  rw [cell_overwrite_of_ne hr hm hrelated hf (isConcrete_of_isForeignKey hfk) hy hvalues] at howned
  exact ⟨hy, howned⟩

end Columns

end AddsNoReferrer

theorem RefersOnly.of_addsNone (h : RefersOnly reg st related field pk keys)
    (h' : AddsNoReferrer reg related field pk st st') : RefersOnly reg st' related field pk keys := by
  intro y hy howned
  obtain ⟨hy, howned⟩ := h' y hy howned
  exact h y hy howned

end RecordMapper.Store

/-!
## Relinked — what assigning keys makes of the rows of an owner

Two relations between a store before and a store after say what it is to
assign keys to an owner: through a model of links (`Relinked`), and
through a foreign key that may be null (`Redirected`). Both say what the
owner has afterwards, and that whatever else there was is `Untouched`.

Deletes touch no row but those that they are given, where no foreign key
leads to the inheritance of the model.
-/

namespace RecordMapper.Store

variable {decls : List ModelDecl} {reg : Registry} {st st' st'' : Store} {m : Model} {name : String} {f : Field}
  {pk k v y : Value} {keys : List Value} {qs : Queryset} {n : Nat}

/-! ## Plain references -/

/-- What foreign keys hold is null or a scalar that is no float. -/
def PlainReferences (reg : Registry) (st : Store) : Prop :=
  ∀ m ∈ reg.models, ∀ f ∈ m.own, f.isForeignKey → ∀ k ∈ st.keys m,
    cell reg st m k f.name = .null ∨ (cell reg st m k f.name).isPlain

instance (reg : Registry) (st : Store) : Decidable (PlainReferences reg st) :=
  inferInstanceAs (Decidable (∀ m ∈ reg.models, ∀ f ∈ m.own, f.isForeignKey → ∀ k ∈ st.keys m,
    cell reg st m k f.name = .null ∨ (cell reg st m k f.name).isPlain))

/-- A delete leaves what foreign keys hold in the rows that stand. -/
theorem PlainReferences.delete (h : PlainReferences reg st) (hr : reg.Rooted) (ho : Orderly reg st) (hm : qs.model ∈ reg.models)
    (hdelete : delete reg st qs = .ok (n, st')) : PlainReferences reg st' := by
  intro m hm' f hf hfk k hk
  rw [(untouched_of_delete hr ho hm' hm hdelete hk).cells]
  exact h m hm' f hf hfk k (((delete_shrinks hdelete).keys m).subset hk)

theorem PlainReferences.cell (h : PlainReferences reg st) (hb : Registry.build decls = .ok reg) (hi : Inherits reg st)
    (hm : m ∈ reg.models) (hf : reg.field? m name = some f) (hfk : f.isForeignKey) (hy : y ∈ st.keys m) :
    cell reg st m y name = .null ∨ (cell reg st m y name).isPlain := by
  obtain ⟨level, hl, hown, hcell⟩ := exists_cell_of_field? hb hm hf (isConcrete_of_isForeignKey hfk)
  rw [hcell]
  exact h level ((Registry.rooted_of_build hb).mem_models hm hl) f hown hfk y (hi m hm level hl hy)

/-- A plain value is found by equality. -/
theorem holds_exact_iff (hpk : pk.isPlain) (hv : v = .null ∨ v.isPlain) : (Lookup.exact pk).holds v = true ↔ v = pk := by
  rw [holds_exact hpk, Value.numEq_iff_of_isPlain hv hpk]

/-- A value is found among plain ones by equality. -/
theorem holds_oneOf_iff_mem (hkeys : ∀ k ∈ keys, k.isPlain) (hv : v = .null ∨ v.isPlain) :
    (Lookup.oneOf keys).holds v = true ↔ v ∈ keys := by
  constructor
  · intro h
    obtain ⟨_, k, hk, hequal⟩ := holds_oneOf_iff.mp h
    rwa [(Value.numEq_iff_of_isPlain hv (hkeys k hk)).mp hequal]
  · exact fun hmem => holds_oneOf_of_isPlain hmem (hkeys v hmem)

section Links

variable {through : Model} {own other : String} {f g : Field} (hb : Registry.build decls = .ok reg)
  (hthrough : through ∈ reg.models) (hown : reg.field? through own = some f) (hfk : f.isForeignKey)
  (hi : Inherits reg st) (hrefs : PlainReferences reg st) (hpk : pk.isPlain)
include hb hthrough hown hfk hi hrefs hpk

/-- Where references are plain, an owner is linked to a key by rows that hold both. -/
theorem linksTo_iff : LinksTo reg st through own other pk k ↔
    ∃ y ∈ st.keys through, cell reg st through y own = pk ∧ cell reg st through y other = k :=
  exists_congr fun _ => and_congr_right fun hy =>
    and_congr_left fun _ => holds_exact_iff hpk (hrefs.cell hb hi hthrough hown hfk hy)

theorem linksOnly_iff (hother : reg.field? through other = some g) (hfk' : g.isForeignKey) (hkeys : ∀ k ∈ keys, k.isPlain) :
    LinksOnly reg st through own other pk keys ↔
      ∀ y ∈ st.keys through, cell reg st through y own = pk → cell reg st through y other ∈ keys :=
  forall₂_congr fun _ hy => imp_congr (holds_exact_iff hpk (hrefs.cell hb hi hthrough hown hfk hy))
    (holds_oneOf_iff_mem hkeys (hrefs.cell hb hi hthrough hother hfk' hy))

end Links

/-! ## What assigning means -/

/-- The links of an owner are replaced: afterwards they lead to the listed keys and to no others. A row that links the
owner to a listed key stays as it is, as the rows of other owners do, and a row that is not as it was is the only one
to link the owner to its key. -/
structure Relinked (reg : Registry) (through : Model) (own other : String) (pk : Value) (keys : List Value)
    (before after : Store) : Prop where
  linked : ∀ k, (∃ y ∈ after.keys through, cell reg after through y own = pk ∧ cell reg after through y other = k) ↔
    k ∈ keys
  kept : ∀ y ∈ before.keys through, cell reg before through y own = pk → cell reg before through y other ∈ keys →
    Untouched reg through before after y
  others : ∀ y ∈ before.keys through, cell reg before through y own ≠ pk → Untouched reg through before after y
  rows : ∀ y ∈ after.keys through, (y ∈ before.keys through ∧ Untouched reg through before after y) ∨
    cell reg after through y own = pk ∧ ∀ z ∈ after.keys through, cell reg after through z own = pk →
      cell reg after through z other = cell reg after through y other → z = y

/-- A foreign key is directed at an owner: afterwards the rows that refer to it are those listed, of the rows there
are, and of the others those that referred to it are released. -/
structure Redirected (reg : Registry) (related : Model) (field : String) (pk : Value) (keys : List Value)
    (before after : Store) : Prop where
  rows : after.keys related = before.keys related
  owned : ∀ y ∈ before.keys related, cell reg after related y field = pk ↔ y ∈ keys
  released : ∀ y ∈ before.keys related, y ∉ keys → cell reg after related y field =
    if cell reg before related y field = pk then .null else cell reg before related y field

/-- A foreign key is directed at an owner by releasing its rows that are not listed, and then pointing those at it that
are. -/
theorem Redirected.of_cells {related : Model} {field : String} (hpk : pk ≠ .null) (hrows : st''.keys related = st.keys related)
    (hreleased : ∀ y ∈ st.keys related, cell reg st' related y field =
      if cell reg st related y field = pk ∧ y ∉ keys then .null else cell reg st related y field)
    (hset : ∀ y ∈ st.keys related, cell reg st'' related y field = if y ∈ keys then pk else cell reg st' related y field) :
    Redirected reg related field pk keys st st'' := by
  refine ⟨hrows, ?_, ?_⟩
  · intro y hy
    rw [hset y hy, hreleased y hy]
    by_cases hlisted : y ∈ keys
    · simp [hlisted]
    · by_cases howned : cell reg st related y field = pk <;> simp [hlisted, howned, hpk.symm]
  · intro y hy hunlisted
    rw [hset y hy, hreleased y hy, if_neg hunlisted]
    simp [hunlisted]

/-! ## Deletes -/

/-- No foreign key leads to a model. -/
def Unreferred (reg : Registry) (m : Model) : Prop :=
  ∀ owner ∈ reg.models, ∀ f ∈ owner.own, f.isForeignKey → f.type.relatedModel? ≠ some m.name

instance (reg : Registry) (m : Model) : Decidable (Unreferred reg m) :=
  inferInstanceAs (Decidable (∀ owner ∈ reg.models, ∀ f ∈ owner.own, f.isForeignKey → f.type.relatedModel? ≠ some m.name))

theorem referringColumns_eq_nil {levels : List Model} (h : ∀ level ∈ levels, Unreferred reg level) :
    referringColumns reg levels = [] := by
  simp only [referringColumns, List.flatMap_eq_nil_iff, List.map_eq_nil_iff, List.filter_eq_nil_iff]
  intro owner howner f hf hrefers
  obtain ⟨hfk, hto⟩ := Bool.and_eq_true_iff.mp hrefers
  split at hto
  · rename_i target htarget
    obtain ⟨level, hl, hname⟩ := List.any_eq_true.mp hto
    exact h level hl owner howner f hf hfk (htarget.trans (congrArg some (beq_iff_eq.mp hname).symm))
  · cases hto

/-- A delete of rows that no foreign key leads to takes those alone. -/
theorem mem_keys_delete (ho : Orderly reg st) (hm : qs.model ∈ reg.models)
    (hfree : ∀ level ∈ family reg qs.model, Unreferred reg level) {pks : List Value} (hselect : select reg st qs = .ok pks)
    (h : delete reg st qs = .ok (n, st')) (hy : y ∈ st.keys qs.model) (hnot : y ∉ pks) : y ∈ st'.keys qs.model := by
  obtain ⟨pks', hselect', _, rfl⟩ := delete_eq_ok h
  obtain rfl : pks = pks' := Except.ok.inj (hselect.symm.trans hselect')
  apply mem_keys_deleteRows hy (ho.plain _ hm y hy) _ _ hnot
  simp [referringColumns_eq_nil hfree]

end RecordMapper.Store
