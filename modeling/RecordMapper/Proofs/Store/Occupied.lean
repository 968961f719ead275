import RecordMapper.Proofs.Store.Unlisted

/-!
# Occupied — owners whose place at a unique foreign key is taken

A unique foreign key takes one row for each owner. While a row refers to an
owner (`Occupied`), no other row that refers to it can be inserted
(`insert_of_occupied`). What such an insert fails with is the unique
constraint of the foreign key, if the same row could be inserted for another
owner (`insert_violates_unique`): the two inserts differ in one column alone
(`SameColumn`), and every other column passes its check in both.
-/

namespace RecordMapper.Store

variable {decls : List ModelDecl} {reg : Registry} {st st' : Store} {m related level : Model} {c f : Field}
  {pk new k : Value} {field name : String} {values : Record} {now : Instant}

/-! ## Rows that refer to an owner -/

/-- The rows that refer to an owner are told by the keys of the model and by what these refer to. -/
theorem referencing_congr (hkeys : st'.keys related = st.keys related)
    (hcells : ∀ k ∈ st.keys related, cell reg st' related k field = cell reg st related k field) :
    referencing reg st' related field pk = referencing reg st related field pk := by
  rw [referencing, referencing, hkeys]
  exact List.filter_congr fun k hk => by rw [hcells k hk]

section Referencing

variable (hr : reg.Rooted) (hrelated : related ∈ reg.models) (hc : c ∈ related.own) (hfk : c.isForeignKey)
include hr hrelated hc hfk

/-- After deletes no other rows refer to an owner than before. -/
theorem Shrinks.referencing_subset (h : Shrinks st st') :
    referencing reg st' related c.name pk ⊆ referencing reg st related c.name pk := by
  intro k hk
  obtain ⟨hk, hrefers⟩ := List.mem_filter.mp hk
  rw [cell_congr hr hrelated hc (isConcrete_of_isForeignKey hfk) (h.row related k hk)] at hrefers
  exact List.mem_filter.mpr ⟨(h.keys related).subset hk, hrefers⟩

/-- Rows refer to what they did if an update of rows of their kind leaves the foreign key out. -/
theorem referencing_update {qs : Queryset} {values : Record} {n : Nat} (hm : qs.model ∈ reg.models)
    (hvalues : related ∈ reg.lineage qs.model → ∀ e ∈ values, e.1 ≠ c.name)
    (h : update reg st qs values = .ok (n, st')) :
    referencing reg st' related c.name pk = referencing reg st related c.name pk := by
  have hconcrete := isConcrete_of_isForeignKey hfk
  by_cases hl : related ∈ reg.lineage qs.model
  · obtain ⟨pks, _, hst', _⟩ := update_eq_ok h
    have hst' : st' = overwrite reg qs.model values pks st := hst'
    have hkeys := (update_overwrites hr hm st pks values).keys related hrelated
    refine referencing_congr (hst' ▸ hkeys) fun k hk => ?_
    rw [hst']
    exact cell_overwrite_of_ne hr hm hrelated hc hconcrete hk (hvalues hl) pks
  · have hout : related.name ∉ (reg.lineage qs.model).map Model.name := fun hname => by
      obtain ⟨level, hlevel, hname⟩ := List.mem_map.mp hname
      exact hl (hr.eq_of_name (hr.mem_models hm hlevel) hrelated hname ▸ hlevel)
    have hrows := congrArg Table.rows (beside_update hout rfl h)
    exact referencing_congr (keys_congr hrows) fun k _ => cell_congr hr hrelated hc hconcrete (row?_congr hrows k)

end Referencing

/-! ## Stores with the same values in the columns of one name -/

/-- Two stores have rows under the same keys, with the same values in the columns of one name. -/
def SameColumn (name : String) (st st' : Store) : Prop :=
  ∀ m, st'.keys m = st.keys m ∧ ∀ k,
    ((st'.table m).rows.lookup k).map (Record.getD · name) = ((st.table m).rows.lookup k).map (Record.getD · name)

namespace SameColumn

theorem refl (name : String) (st : Store) : SameColumn name st st := fun _ => ⟨rfl, fun _ => rfl⟩

theorem cell_eq (h : SameColumn name st st') (m : Model) (k : Value) :
    cell reg st' m k name = cell reg st m k name := by
  unfold cell
  split
  · rfl
  · split
    · rfl
    · rename_i owner _
      obtain ⟨hkeys, hrows⟩ := h owner
      have hrow : (st'.row? owner k).map (Record.getD · name) = (st.row? owner k).map (Record.getD · name) := by
        rw [row?, row?, Keyed.get?, Keyed.get?, Keyed.seat_congr hkeys]
        exact hrows _
      cases h' : st'.row? owner k <;> cases h : st.row? owner k <;> rw [h', h] at hrow
      · cases hrow
      · cases hrow
      · exact Option.some.inj hrow

theorem setRow {row row' : Record} (h : SameColumn name st st') (hrow : row'.getD name = row.getD name) (level : Model)
    (k : Value) : SameColumn name (st.setRow level k row) (st'.setRow level k row') := by
  intro m
  by_cases hname : m.name = level.name
  · have htable : ∀ st : Store, st.table m = st.table level := fun st => by rw [table, hname, ← table]
    obtain ⟨hkeys, hrows⟩ := h level
    simp only [keys, htable, table_setRow_self]
    refine ⟨?_, fun k' => ?_⟩
    · by_cases hmem : k ∈ st.keys level
      · rw [keys_insertEntry_of_mem row hmem, keys_insertEntry_of_mem row' (hkeys ▸ hmem :)]
        exact hkeys
      · rw [keys_insertEntry_of_not_mem row hmem, keys_insertEntry_of_not_mem row' (hkeys ▸ hmem :)]
        exact congrArg (· ++ [k]) hkeys
    · by_cases hk : k' = k
      · rw [hk, lookup_insertEntry_self, lookup_insertEntry_self, Option.map_some, Option.map_some, hrow]
      · rw [lookup_insertEntry_ne _ hk, lookup_insertEntry_ne _ hk]
        exact hrows k'
  · rw [keys, keys, table_setRow_ne _ _ _ hname, table_setRow_ne _ _ _ hname]
    exact h m

theorem setRows {row row' : Model → Record} (h : SameColumn name st st')
    (hrow : ∀ level, (row' level).getD name = (row level).getD name) (k : Value) (levels : List Model) :
    SameColumn name (setRows row k st levels) (setRows row' k st' levels) := by
  induction levels generalizing st st' with
  | nil => exact h
  | cons level rest ih => exact ih (h.setRow (hrow level) level k)

end SameColumn

/-- A new row is made of what is given for its columns, each from what is given under its name. -/
theorem getD_localRow_congr {values' : Record} (h : values'.get? name = values.get? name) (now : Instant) (level : Model)
    (k : Value) : (localRow reg now level k values').getD name = (localRow reg now level k values).getD name := by
  have hself : (name == name) = true := beq_self_eq_true name
  have hcolumn : ∀ given : Record, (localRow reg now level k given).getD name =
      (Record.extend [] (((reg.localColumns level).filter (name == ·.name)).map fun f =>
        (f.name, if f.primaryKey then k else (given.get? name).getD (f.initial now)))).getD name := fun given => by
    rw [← Record.getD_restrict hself]
    refine congrArg (Record.getD · name) ((Record.restrict_extend [] _).trans (congrArg (Record.extend []) ?_))
    rw [Record.restrict, List.filter_map]
    refine List.map_congr_left fun f hf => ?_
    have hname : name = f.name := beq_iff_eq.mp (List.mem_filter.mp hf).2
    rw [hname]
  rw [hcolumn, hcolumn, h]

/-- Columns are checked by their names alone. -/
theorem checkColumns_of_names {values' : Record} (hnames : values.map Prod.fst ⊆ values'.map Prod.fst)
    (h : checkColumns reg m values' = .ok ()) : checkColumns reg m values = .ok () := by
  refine Outcome.forM_eq_ok.mpr fun ⟨name, v⟩ he => ?_
  obtain ⟨⟨_, v'⟩, he', rfl⟩ := List.mem_map.mp (hnames (List.mem_map_of_mem he))
  exact Outcome.forM_eq_ok.mp h (_, v') he'

/-! ## Taken places -/

/-- A row of a model, under a key that equals no other, refers to an owner. -/
def Occupied (reg : Registry) (st : Store) (related : Model) (field : String) (pk : Value) : Prop :=
  ∃ k ∈ referencing reg st related field pk, ∀ other, k.equiv other = true → k = other

/-- The store with a new row, as an insert checks it. -/
def withRow (reg : Registry) (now : Instant) (st : Store) (m : Model) (new : Value) (values : Record) : Store :=
  setRows (fun level => localRow reg now level new values) new (noteKey st (reg.rootOf m) new) (reg.lineage m).reverse

section Insert

variable (hread : reg.Readable) (hb : Registry.build decls = .ok reg) (hi : Inherits reg st) (hm : m ∈ reg.models)
  (hl : related ∈ reg.lineage m) (hc : c ∈ related.own) (hfk : c.isForeignKey)

section Columns

include hb hm hl hc hfk

/-- The rows that stood before stand beside a new one. -/
theorem withRow_others (hk : k ∈ st.keys related) (hne : k ≠ new) :
    k ∈ (withRow reg now st m new values).keys related ∧
      cell reg (withRow reg now st m new values) related k c.name = cell reg st related k c.name := by
  have hr := Registry.rooted_of_build hb
  have hnd : ((reg.lineage m).reverse.map Model.name).Nodup := by
    rw [List.map_reverse, List.nodup_reverse]
    exact hr.nodup_lineage hm
  have hrows : ((withRow reg now st m new values).table related).rows =
      ((st.setRow related new (localRow reg now related new values)).table related).rows := by
    rw [withRow, table_setRows_mem _ _ _ hnd (List.mem_reverse.mpr hl), table_setRow_self]
    simp only [table_noteKey_rows]
  refine ⟨keys_congr hrows ▸ mem_keys_setRow.mpr (.inr hk), ?_⟩
  exact cell_congr hr (hr.mem_models hm hl) hc (isConcrete_of_isForeignKey hfk)
    ((row?_congr hrows k).trans (row?_setRow_ne _ hk hne))

/-- The new row refers to what is given for its foreign key. -/
theorem withRow_new (hname : c.name ≠ "pk" ∧ c.name ≠ related.pkName) (hgiven : values.get? c.name = some pk) :
    cell reg (withRow reg now st m new values) related new c.name = pk := by
  have hr := Registry.rooted_of_build hb
  have hrelated := hr.mem_models hm hl
  have hvalue : (localRow reg now related new values).lookup c.name = some pk :=
    lookup_localRow new hc (isConcrete_of_isForeignKey hfk) fun g hg hgname =>
      ⟨primaryKey_of_ne_key hb hrelated hname.2 g hg hgname, by rw [hgiven, Option.getD_some]⟩
  rw [cell_of_own hr hrelated hc (isConcrete_of_isForeignKey hfk), if_neg (by simp [hname]), withRow,
    row?_setRows hr hm _ new _ hl, Option.map_some, Record.getD_eq, hvalue]
  rfl

variable (hunique : c.unique) (hpk : pk.isNull = false) (hoccupied : Occupied reg st related c.name pk)
  (hgiven : values.get? c.name = some pk)
include hi hunique hpk hoccupied hgiven

/-- A new row that refers to an owner violates the unique constraint while another row does. -/
theorem checkCell_of_occupied (hname : c.name ≠ "pk" ∧ c.name ≠ related.pkName)
    (hnew : st.contains (reg.rootOf m) new = false) :
    checkCell reg (withRow reg now st m new values) related new c = .error (.uniqueViolated related.name c.name) := by
  have hr := Registry.rooted_of_build hb
  have hrelated := hr.mem_models hm hl
  obtain ⟨k, hk, hsole⟩ := hoccupied
  obtain ⟨hk, hrefers⟩ := List.mem_filter.mp hk
  have hne : k ≠ new := by
    rintro rfl
    refine not_mem_of_contains hnew (hi related hrelated _ ?_ hk)
    exact hr.rootOf_of_mem_lineage hm hl ▸ reg.rootOf_mem_lineage related
  obtain ⟨hstays, hkept⟩ : k ∈ (withRow reg now st m new values).keys related ∧
      cell reg (withRow reg now st m new values) related k c.name = cell reg st related k c.name :=
    withRow_others hb hm hl hc hfk hk hne
  have happart : k.equiv new = false :=
    Bool.eq_false_iff.mpr fun h => hne (hsole new h)
  have hvalue : cell reg (withRow reg now st m new values) related new c.name = pk :=
    withRow_new hb hm hl hc hfk hname hgiven
  have hrepeated : ((withRow reg now st m new values).keys related).any (fun other => !(other.equiv new) &&
      (cell reg (withRow reg now st m new values) related other c.name).equiv pk) = true :=
    List.any_eq_true.mpr ⟨k, hstays, by rw [happart, hkept, hrefers]; rfl⟩
  have hbeside := primaryKey_of_ne_key hb hrelated hname.2 c (mem_localColumns hc (isConcrete_of_isForeignKey hfk)) rfl
  simp only [checkCell, hvalue, hpk, hbeside, hunique, hrepeated]
  rfl

include hread

/-- No row that refers to an owner can be inserted while another one does. -/
theorem insert_of_occupied (now : Instant) : ∃ f, insert reg now st m values = .error f := by
  have hr := Registry.rooted_of_build hb
  have hrelated := hr.mem_models hm hl
  cases hinsert : insert reg now st m values with
  | error f => exact ⟨f, rfl⟩
  | ok r =>
      obtain ⟨new, st'⟩ := r
      exfalso
      obtain ⟨pkField, _, hkey, _, hnew, hst', hcheck⟩ := insert_eq_ok hinsert
      by_cases hname : c.name = related.pkName
      · -- The foreign key is the primary key, so the row would take the key of the row that stands.
        obtain ⟨k, hk, hsole⟩ := hoccupied
        obtain ⟨hk, hrefers⟩ := List.mem_filter.mp hk
        rw [hname, cell_pkName] at hrefers
        rw [hname, pkName_of_mem_lineage hb hm hl] at hgiven
        rw [newKey, givenKey?, hgiven, Option.some_or, Option.filter_some, hpk] at hkey
        obtain rfl : k = new := (hsole pk hrefers).trans hkey.symm
        refine not_mem_of_contains hnew (hi related hrelated _ ?_ hk)
        exact hr.rootOf_of_mem_lineage hm hl ▸ reg.rootOf_mem_lineage related
      · have hname : c.name ≠ "pk" ∧ c.name ≠ related.pkName :=
          ⟨fun halias => hname (halias.trans (hread.reserved related hrelated c hc halias).symm), hname⟩
        have hrefused : checkCell reg (withRow reg now st m new values) related new c = _ :=
          checkCell_of_occupied hb hi hm hl hc hfk hunique hpk hoccupied hgiven hname hnew
        have hlevel := Outcome.forM_eq_ok.mp hcheck related hl
        have hpassed := Outcome.forM_eq_ok.mp hlevel c (mem_localColumns hc (isConcrete_of_isForeignKey hfk))
        rw [hst', ← withRow, hrefused] at hpassed
        cases hpassed

/-- Where the same row could be inserted for another owner, the insert fails with the unique constraint of the foreign
key. No other level of the inheritance has a column of its name. -/
theorem insert_violates_unique (hkey : c.name ≠ related.pkName)
    (halone : ∀ level ∈ reg.lineage m, ∀ g ∈ level.own, g.name = c.name → level = related) {values' : Record}
    (hsame : values.SameBeside c.name values') {r : Value × Store} (hfree : insert reg now st m values' = .ok r) :
    insert reg now st m values = .error (.uniqueViolated related.name c.name) := by
  have hr := Registry.rooted_of_build hb
  have hrelated := hr.mem_models hm hl
  have hname : c.name ≠ "pk" ∧ c.name ≠ related.pkName :=
    ⟨fun halias => hkey (halias.trans (hread.reserved related hrelated c hc halias).symm), hkey⟩
  obtain ⟨f, hf⟩ := insert_of_occupied hread hb hi hm hl hc hfk hunique hpk hoccupied hgiven now
  obtain ⟨new, taken⟩ := r
  -- Both inserts come to the check of their rows, which differ in the foreign key alone.
  have hcolumns : checkColumns reg m values = .ok () := by
    obtain ⟨_, hcolumns, _⟩ := Outcome.bind_eq_ok.mp hfree
    refine checkColumns_of_names (fun name hname => lookup_isSome_iff_mem_keys.mp ?_) hcolumns
    exact (hsame name).1.trans (lookup_isSome_iff_mem_keys.mpr hname)
  obtain ⟨pkField, hfield, hnew, hnull, hmissing, htaken, hcheck⟩ := insert_eq_ok hfree
  have hothers : ∀ name, name ≠ c.name → values'.get? name = values.get? name := fun name => (hsame name).2
  have hsameKey : newKey reg now st m pkField values = new := by
    rw [hnew, newKey, newKey, givenKey?, givenKey?, hothers _ hname.1.symm,
      hothers _ (pkName_of_mem_lineage hb hm hl ▸ hname.2.symm)]
  refine hf.trans (congrArg Except.error ?_)
  rw [insert_eq_of_newKey hcolumns hfield hsameKey hnull hmissing] at hf
  have hfailed := Outcome.error_of_bind_pure hf
  obtain ⟨level, hlevel, hcells⟩ := Outcome.exists_of_forM_error hfailed
  obtain ⟨g, hg, hcell⟩ := Outcome.exists_of_forM_error hcells
  rw [← withRow] at hcell
  by_cases hcolumn : g.name = c.name
  · -- The column that fails is the foreign key, as no other column has its name.
    have hown : g ∈ level.own := by
      rcases List.mem_append.mp hg with hinherited | hown
      · split at hinherited
        · have hkeyName := Registry.name_of_field_pkName (Option.mem_toList.mp hinherited)
          rw [hcolumn, pkName_of_mem_lineage hb hm hlevel, ← pkName_of_mem_lineage hb hm hl] at hkeyName
          exact absurd hkeyName hkey
        · cases hinherited
      · exact (List.mem_filter.mp hown).1
    obtain rfl := halone level hlevel g hown hcolumn
    obtain rfl : g = c := List.inj_on_of_nodup_map (hread.distinct _ hrelated) hown hc hcolumn
    rw [checkCell_of_occupied hb hi hm hl hc hfk hunique hpk hoccupied hgiven hname hmissing] at hcell
    cases hcell
    rfl
  · -- Every other column has the value that passed the check for another owner.
    have hcells' : SameColumn g.name taken (withRow reg now st m new values) := by
      rw [htaken]
      exact (SameColumn.refl g.name _).setRows
        (fun level => getD_localRow_congr (hothers g.name hcolumn).symm now level new) new _
    have hpassed := Outcome.forM_eq_ok.mp (Outcome.forM_eq_ok.mp hcheck level hlevel) g hg
    have hkept := checkCell_kept hpassed (hcells'.cell_eq level new)
      (fun _ _ _ other hother _ _ => ⟨(hcells' level).1 ▸ hother, hcells'.cell_eq level other⟩)
      fun _ _ t _ hfound => (contains_congr (hcells' t).1 _).trans hfound
    rw [hkept] at hcell
    cases hcell

end Columns

end Insert

end RecordMapper.Store
