import RecordMapper.Proofs.Registry.Routes
import RecordMapper.Proofs.Store.Carried
import RecordMapper.Proofs.Store.Hops
import RecordMapper.Proofs.Store.Links
import RecordMapper.Proofs.Store.References

/-!
# Rewriting — rows that can be written once more

A row that was checked passes the check again after any change that leaves
it, takes none of the keys it refers to and brings no row that repeats a
unique value of its own (`checkCell_kept`). Deletes, writes in other
tables and updates of another column of its model are such changes. So a
row that carries some values stays `Rewritable` with them.
-/

namespace RecordMapper.Store

variable {reg : Registry} {st st' : Store} {m t : Model} {f : Field} {k pk v : Value} {values : Record}
  {qs : Queryset} {n : Nat} {name : String}

/-! ## Orderly stores -/

/-- All keys of a store are scalars that are neither null nor floats. -/
def PlainKeys (reg : Registry) (st : Store) : Prop := ∀ m ∈ reg.models, ∀ k ∈ st.keys m, k.isPlain

/-- A store whose keys are plain, each once in its table and at all levels of its inheritance. -/
structure Orderly (reg : Registry) (st : Store) : Prop where
  distinct : ∀ m ∈ reg.models, (st.keys m).Nodup
  plain : PlainKeys reg st
  inherits : Inherits reg st

/-- Where all keys are plain, equal ones are the same. -/
theorem PlainKeys.exact (h : PlainKeys reg st) : Exact reg st := exact_of_isPlain fun k ⟨m, hm, hk⟩ => h m hm k hk

theorem Intact.orderly (h : Intact reg st) (hi : Inherits reg st) : Orderly reg st := ⟨h.distinct, h.plain, hi⟩

namespace Orderly

variable (h : Orderly reg st)
include h

/-- Equal keys are the same. -/
theorem exact : Exact reg st := h.plain.exact

theorem overwrite (hr : reg.Rooted) (hm : m ∈ reg.models) (pks : List Value) (values : Record) :
    Orderly reg (overwrite reg m values pks st) := by
  have hkeys : ∀ t ∈ reg.models, (Store.overwrite reg m values pks st).keys t = st.keys t :=
    (update_overwrites hr hm st pks values).keys
  refine ⟨fun t ht => hkeys t ht ▸ h.distinct t ht, fun t ht => hkeys t ht ▸ h.plain t ht, fun t ht upper hu => ?_⟩
  rw [hkeys t ht, hkeys upper (hr.mem_models ht hu)]
  exact h.inherits t ht upper hu

theorem update (hr : reg.Rooted) (hm : qs.model ∈ reg.models) (hupdate : update reg st qs values = .ok (n, st')) :
    Orderly reg st' := by
  obtain ⟨pks, _, hst', _⟩ := update_eq_ok hupdate
  exact hst' ▸ h.overwrite hr hm pks values

theorem delete (hr : reg.Rooted) (hm : qs.model ∈ reg.models) (hdelete : delete reg st qs = .ok (n, st')) :
    Orderly reg st' := by
  have hshrinks := delete_shrinks hdelete
  exact ⟨fun t ht => (h.distinct t ht).sublist (hshrinks.keys t),
    fun t ht k hk => h.plain t ht k ((hshrinks.keys t).subset hk),
    delete_inherits hr hm h.distinct h.inherits hdelete⟩

theorem insert (hr : reg.Rooted) (hm : m ∈ reg.models) {now : Instant} (hplain : k.isPlain)
    (hinsert : insert reg now st m values = .ok (k, st')) : Orderly reg st' where
  inherits := insert_inherits hr hm h.inherits hinsert
  distinct t ht := by
    rcases insert_rows hr hm hinsert ht with ⟨_, row, hrows⟩ | ⟨_, htable⟩
    · rw [keys_congr hrows]
      exact nodup_keys_setRow k row (h.distinct t ht)
    · rw [keys, htable]
      exact h.distinct t ht
  plain t ht k' hk' := by
    rcases insert_row_cases hr hm hinsert ht hk' with ⟨hold, _⟩ | ⟨rfl, _⟩
    · exact h.plain t ht k' hold
    · exact hplain

end Orderly

/-! ## Checks that are passed again -/

theorem checkCell_kept (h : checkCell reg st m k f = .ok ())
    (hcell : cell reg st' m k f.name = cell reg st m k f.name)
    (hothers : f.primaryKey = false → f.unique → (cell reg st m k f.name).isNull = false →
      ∀ other ∈ st'.keys m, other.equiv k = false →
      (cell reg st' m other f.name).equiv (cell reg st m k f.name) = true →
      other ∈ st.keys m ∧ cell reg st' m other f.name = cell reg st m other f.name)
    (hfound : f.isForeignKey → (cell reg st m k f.name).isNull = false → ∀ t, reg.related m f = .ok t →
      st.contains t (cell reg st m k f.name) = true → st'.contains t (cell reg st m k f.name) = true) :
    checkCell reg st' m k f = .ok () := by
  rw [checkCell_eq_ok_iff, hcell]
  rcases checkCell_eq_ok_iff.mp h with hkey | hnull | ⟨hv, hunique, hforeign⟩
  · exact .inl hkey
  · exact .inr (.inl hnull)
  · cases hp : f.primaryKey with
    | true => exact .inl rfl
    | false =>
        refine .inr (.inr ⟨hv, fun hu other ho hne => ?_, fun hfk => ?_⟩)
        · by_contra hequiv
          rw [Bool.not_eq_false] at hequiv
          obtain ⟨hold, hsame⟩ := hothers hp hu hv other ho hne hequiv
          rw [hsame, hunique hu other hold hne] at hequiv
          cases hequiv
        · obtain ⟨t, ht, hcontains⟩ := hforeign hfk
          exact ⟨t, ht, hfound hfk hv t ht hcontains⟩

/-- The row of a model without a parent is checked column by column. -/
theorem checkRow_of_top (htop : m.parent = none) :
    checkRow reg st m k = .ok () ↔ ∀ f ∈ m.own, f.isConcrete → checkCell reg st m k f = .ok () := by
  simp only [checkRow, reg.lineage_of_top htop, Outcome.forM_eq_ok, List.mem_singleton, forall_eq,
    Registry.localColumns, htop, Option.isSome_none, Bool.false_eq_true, if_false, List.nil_append, List.mem_filter,
    and_imp]

/-- The model that a foreign key leads to. -/
theorem target_of_related (h : reg.related m f = .ok t) : t ∈ reg.models ∧ f.type.relatedModel? = some t.name := by
  refine ⟨Registry.mem_of_related h, ?_⟩
  rw [Registry.related] at h
  split at h
  · rename_i hto
    rw [hto, Registry.name_of_model h]
  · cases h

section Top

variable (hr : reg.Rooted) (hm : m ∈ reg.models) (htop : m.parent = none) (hcheck : checkRow reg st m k = .ok ())
include hr hm htop hcheck

/-- A row that stays after a delete passes the check again. -/
theorem checkRow_delete (he : Exact reg st) (ho : qs.model ∈ reg.models) (hdelete : delete reg st qs = .ok (n, st'))
    (hk : k ∈ st'.keys m) : checkRow reg st' m k = .ok () := by
  have hshrinks := delete_shrinks hdelete
  rw [checkRow_of_top htop] at hcheck ⊢
  intro f hf hc
  have hsame : ∀ {k}, k ∈ st'.keys m → cell reg st' m k f.name = cell reg st m k f.name := fun hk =>
    cell_congr hr hm hf hc (hshrinks.row m _ hk)
  refine checkCell_kept (hcheck f hf hc) (hsame hk) (fun _ _ _ other hother _ _ => ?_) fun hfk hv t ht hfound => ?_
  · exact ⟨(hshrinks.keys m).subset hother, hsame hother⟩
  · obtain ⟨htm, hto⟩ := target_of_related ht
    have hrefers : Refers reg st m f t k :=
      refers_of_found hm hf hfk htm he ((hshrinks.keys m).subset hk) (.inr hfound)
    have hafter := delete_refers hr hm hf hfk htm hto ho he.key hrefers hdelete hk
    rw [Refers, hsame hk] at hafter
    refine contains_of_mem (hafter.resolve_left fun hnull => ?_)
    rw [hnull] at hv
    cases hv

/-- A row passes the check again after changes beside its table that take no key. -/
theorem checkRow_beside (he : Exact reg st) (hbeside : Beside m st st') (hkeys : ∀ t ∈ reg.models, st.keys t ⊆ st'.keys t)
    (hk : k ∈ st.keys m) : checkRow reg st' m k = .ok () := by
  have hrows := congrArg Table.rows hbeside
  rw [checkRow_of_top htop] at hcheck ⊢
  intro f hf hc
  have hsame : ∀ k, cell reg st' m k f.name = cell reg st m k f.name := fun k =>
    cell_congr hr hm hf hc (row?_congr hrows k)
  refine checkCell_kept (hcheck f hf hc) (hsame k) (fun _ _ _ other hother _ _ => ?_) fun hfk hv t ht hfound => ?_
  · exact ⟨keys_congr hrows ▸ hother, hsame other⟩
  · obtain ⟨htm, _⟩ := target_of_related ht
    exact contains_of_mem (hkeys t htm (mem_keys_of_found he (referred_cell hm hf hfk hk) htm hfound))

end Top

/-! ## Updates of one column -/

theorem contains_congr (h : st'.keys t = st.keys t) (v : Value) : st'.contains t v = st.contains t v := by
  have hseat : Keyed.seat (st'.table t).rows v = Keyed.seat (st.table t).rows v := Keyed.seat_congr h v
  have hiff : ∀ st : Store, st.contains t v = true ↔ Keyed.seat (st.table t).rows v ∈ st.keys t := fun st =>
    lookup_isSome_iff_mem_keys
  rw [Bool.eq_iff_iff, hiff, hiff, hseat, h]

section Overwritten

variable {pks : List Value} (hr : reg.Rooted) (hm : m ∈ reg.models) (hpks : pks ⊆ st.keys m) (hk : k ∈ st.keys m)
include hr hm hpks hk

/-- An update leaves the rows of its model that are not selected. -/
theorem row?_overwrite (values : Record) (hnot : k ∉ pks) : (overwrite reg m values pks st).row? m k = st.row? m k := by
  rcases (update_overwrites hr hm st pks values).row m hm k hk with ⟨_, pk, hpk, hseat⟩ | hrow
  · rw [Keyed.seat_of_mem (hpks hpk)] at hseat
    exact absurd (hseat ▸ hpk) hnot
  · exact hrow

end Overwritten

section Top

variable (hr : reg.Rooted) (hm : m ∈ reg.models) (htop : m.parent = none)
include hr hm htop

/-- A row passes the check again after a column of its model was updated with null or with one plain value. -/
theorem checkRow_update (hcheck : checkRow reg st m k = .ok ()) (hplain : ∀ k ∈ st.keys m, k.isPlain)
    (hk : k ∈ st.keys m) (hv : v = .null ∨ v.isPlain) (hqs : qs.model = m)
    (h : update reg st qs [(name, v)] = .ok (n, st')) : checkRow reg st' m k = .ok () := by
  obtain ⟨_, hkeyless⟩ := updatable_of_update h
  obtain ⟨pks, hselect, hst', hchecks, _⟩ := update_eq_ok h
  subst hqs
  have hpks : pks ⊆ st.keys qs.model := (select_subperm hselect).subset
  have hst' : st' = overwrite reg qs.model [(name, v)] pks st := hst'
  have hover : ∀ t ∈ reg.models, st'.keys t = st.keys t := hst' ▸ (update_overwrites hr hm st pks _).keys
  by_cases hkp : k ∈ pks
  · exact hchecks k hkp
  · have hne : name ≠ "pk" ∧ name ≠ qs.model.pkName := by
      simpa [Record.has] using hkeyless
    have hrow : ∀ {k}, k ∈ st.keys qs.model → k ∉ pks → st'.row? qs.model k = st.row? qs.model k := fun hk hnot =>
      hst' ▸ row?_overwrite hr hm hpks hk _ hnot
    have hchecked := fun k hk => (checkRow_of_top htop).mp (hchecks k hk)
    rw [checkRow_of_top htop] at hcheck ⊢
    intro f hf hc
    have hsame : cell reg st' qs.model k f.name = cell reg st qs.model k f.name := cell_congr hr hm hf hc (hrow hk hkp)
    refine checkCell_kept (hcheck f hf hc) hsame (fun hp hu hnull other hother hapart hequiv => ?_) fun _ _ t ht hfound => ?_
    · have hold : other ∈ st.keys qs.model := hover _ hm ▸ hother
      refine ⟨hold, ?_⟩
      by_cases hop : other ∈ pks
      · have hthere : Holds reg qs.model other f (· = cell reg st qs.model other f.name) st :=
          ⟨hold, by rwa [reg.rootOf_of_top htop], rfl⟩
        by_cases hname : name = f.name
        · -- The row was written to and checked, so it does not repeat the value of this one.
          exfalso
          subst hname
          have hwritten : cell reg st' qs.model other f.name = v := by
            rw [hst']
            exact (hthere.overwritten hr hm hm hf hc (columnOwner?_of_own hr hm hf hc) hne hop
              ⟨_, List.mem_singleton.mpr rfl, rfl⟩ fun e he _ => by rw [List.mem_singleton.mp he]).cell
          rw [hwritten] at hequiv
          rcases hv with rfl | hv
          · rw [Value.equiv_null_iff.mp hequiv] at hnull
            cases hnull
          · have hvalue : v = cell reg st qs.model k f.name := (Value.equiv_iff_of_isPlain_left hv).mp hequiv
            have hkother : k.equiv other = false := Bool.eq_false_iff.mpr fun heq =>
              hkp ((Value.equiv_iff_of_isPlain_left (hplain k hk)).mp heq ▸ hop)
            have hwrittenNull : (cell reg st' qs.model other f.name).isNull = false :=
              hwritten.symm ▸ Value.isNull_of_isPlain hv
            have hunique := (checkCell_eq_ok (hchecked other hop f hf hc) hp).2 hu hwrittenNull k
              (hover _ hm ▸ hk) hkother
            rw [hsame, hwritten, ← hvalue, (Value.equiv_iff_of_isPlain hv).mpr rfl] at hunique
            cases hunique
        · rw [hst']
          refine (hthere.overwrite hr hm hm hf hc (fun e he hn => absurd ?_ hname) pks).cell
          rwa [List.mem_singleton.mp he] at hn
      · exact cell_congr hr hm hf hc (hrow hold hop)
    · rwa [contains_congr (hover t (Registry.mem_of_related ht))]

end Top

/-! ## Rows with values -/

/-- The row of a key stands with some values, and passes its check if there are any. -/
structure Rewritable (reg : Registry) (m : Model) (k : Value) (values : Record) (st : Store) : Prop where
  key : k ∈ st.keys m
  carries : ∀ e ∈ values, Carries m k e st
  checked : values ≠ [] → checkRow reg st m k = .ok ()

namespace Rewritable

variable (hr : reg.Rooted) (hm : m ∈ reg.models)

/-- Writing the values once more leaves the store. -/
theorem update_eq (h : Rewritable reg m k values st) (hvalues : Updatable reg m values) (hne : values ≠ [])
    (howner : ∀ e ∈ values, columnOwner? reg m e.1 = some m) (hqs : qs.model = m) {pks : List Value}
    (hselect : select reg st qs = .ok pks) (hpks : ∀ k' ∈ pks, k' = k) :
    Store.update reg st qs values = .ok (pks.length, st) := by
  subst hqs
  refine update_of_carries hvalues hselect (fun k' hk' e he => ?_) fun k' hk' => hpks k' hk' ▸ h.checked hne
  exact ⟨_, howner e he, hpks k' hk' ▸ h.carries e he⟩

include hr hm

/-- A row that was overwritten. -/
theorem of_overwrite (hk : k ∈ st.keys m) {pks : List Value} (hpks : k ∈ pks)
    (howner : ∀ e ∈ values, columnOwner? reg m e.1 = some m) (hnames : (values.map Prod.fst).Nodup)
    (hst' : st' = overwrite reg m values pks st) (hchecked : values ≠ [] → checkRow reg st' m k = .ok ()) :
    Rewritable reg m k values st' := by
  refine ⟨hst' ▸ keys_subset_overwrite _ _ _ _ hk, fun e he => ?_, hchecked⟩
  rw [hst']
  refine carries_overwritten hr hm hm hk hpks he (howner e he) fun e' he' hname => ?_
  exact congrArg Prod.snd (List.inj_on_of_nodup_map hnames he' he hname)

/-- A row that was inserted. -/
theorem of_insert {now : Instant} {row : Record} (hgiven : ∀ e ∈ values, row.get? e.1 = some e.2)
    (hcolumns : ∀ e ∈ values, ∃ f ∈ m.own, f.name = e.1 ∧ f.isConcrete ∧
      ∀ g ∈ reg.localColumns m, g.name = e.1 → g.primaryKey = false)
    (h : insert reg now st m row = .ok (k, st')) : Rewritable reg m k values st' := by
  obtain ⟨_, _, _, _, _, _, hcheck⟩ := insert_eq_ok h
  have hkey := mem_keys_insert hr hm h (reg.self_mem_lineage m)
  refine ⟨hkey, fun e he => ⟨hkey, ?_⟩, fun _ => hcheck⟩
  obtain ⟨f, hf, hname, hc, hbeside⟩ := hcolumns e he
  rw [row?_insert hr hm h (reg.self_mem_lineage m), Option.bind_some, ← hname]
  refine lookup_localRow k hf hc fun g hg hg' => ⟨hbeside g hg (hg'.trans hname), ?_⟩
  rw [hname, hgiven e he]
  rfl

variable (htop : m.parent = none) (h : Rewritable reg m k values st)
include htop h

theorem delete (he : Exact reg st) (ho : qs.model ∈ reg.models) (hdelete : Store.delete reg st qs = .ok (n, st'))
    (hk : k ∈ st'.keys m) : Rewritable reg m k values st' where
  key := hk
  carries e he := ⟨hk, (delete_shrinks hdelete).row m k hk ▸ (h.carries e he).entry⟩
  checked hne := checkRow_delete hr hm htop (h.checked hne) he ho hdelete hk

theorem beside (he : Exact reg st) (hbeside : Beside m st st') (hkeys : ∀ t ∈ reg.models, st.keys t ⊆ st'.keys t) :
    Rewritable reg m k values st' where
  key := hkeys m hm h.key
  carries e he := (h.carries e he).of_row? (hkeys m hm) (row?_congr (congrArg Table.rows hbeside) k)
  checked hne := checkRow_beside hr hm htop (h.checked hne) he hbeside hkeys h.key

theorem update (hplain : ∀ k ∈ st.keys m, k.isPlain) (hv : v = .null ∨ v.isPlain) (hapart : ∀ e ∈ values, e.1 ≠ name)
    (hqs : qs.model = m) (hupdate : Store.update reg st qs [(name, v)] = .ok (n, st')) :
    Rewritable reg m k values st' where
  key := keys_subset_update hupdate m h.key
  carries e he := by
    obtain ⟨pks, _, hst', _⟩ := update_eq_ok hupdate
    have hst' : st' = overwrite reg qs.model [(name, v)] pks st := hst'
    subst hqs
    rw [hst']
    refine (h.carries e he).overwrite hr hm hm (fun e' he' _ hname => absurd ?_ (hapart e he)) pks
    rw [← hname, List.mem_singleton.mp he']
  checked hne := checkRow_update hr hm htop (h.checked hne) hplain h.key hv hqs hupdate

end Rewritable

end RecordMapper.Store
