import RecordMapper.Proofs.Store.Cascades
import RecordMapper.Proofs.Read.Fetched
import RecordMapper.Proofs.Entries

/-!
# Cells — what writes leave in the columns of a row

The columns of a row stand in the tables of its model and of the
ancestors. What holds of the value in a column (`Holds`) goes on to hold
through inserts, since a row that stands at the top of its inheritance
is a new one to none of them, and through updates that write nothing
else under the column's name.

The row of a model without a parent stands in one table. Where its key is
plain, columns written into it and an insert of it change that row alone
(`SameBut`). The key selects no other row, as long as no stored key is a
float: a float is equal to an integer that it is not.
-/

namespace RecordMapper.Store

variable {reg : Registry} {st st' : Store} {m a : Model} {f : Field} {pk k v : Value} {values : Record}
  {name : String} {P : Value → Prop}

/-- What the row of a key, which stands at the top of its inheritance too, holds in a column has a property. -/
structure Holds (reg : Registry) (a : Model) (k : Value) (f : Field) (P : Value → Prop) (st : Store) : Prop where
  key : k ∈ st.keys a
  root : k ∈ st.keys (reg.rootOf a)
  cell : P (cell reg st a k f.name)

/-- The store with columns written into some rows of a model, one after another. -/
def overwrite (reg : Registry) (m : Model) (values : Record) (pks : List Value) (st : Store) : Store :=
  pks.foldl (fun st pk => values.foldl (fun st (name, v) => setCell reg st m pk name v) st) st

theorem overwrite_nil (reg : Registry) (m : Model) (pks : List Value) (st : Store) :
    overwrite reg m [] pks st = st :=
  List.foldl_fixed pks

section Frames

variable (hr : reg.Rooted) (hm : m ∈ reg.models) (ha : a ∈ reg.models) (hf : f ∈ a.own) (hc : f.isConcrete)
include hr hm ha hf hc

omit hm in
/-- What is written into a column of a row stands there, in the table of the level that has the column. -/
theorem cell_setCell_self (howner : columnOwner? reg m f.name = some a) (hne : f.name ≠ "pk" ∧ f.name ≠ a.pkName)
    (hk : k ∈ st.keys a) (v : Value) : cell reg (setCell reg st m k f.name v) a k f.name = v := by
  obtain ⟨row, hrow⟩ := Option.isSome_iff_exists.mp (Keyed.get?_isSome_of_mem hk)
  have hset : setCell reg st m k f.name v = st.setRow a k (row.insert f.name v) := by
    simp only [setCell, howner, row?, hrow, Keyed.seat_of_mem hk]
  have hnew : (st.setRow a k (row.insert f.name v)).row? a k = some (row.insert f.name v) := by
    rw [row?_of_mem (mem_keys_setRow.mpr (.inl rfl)), table_setRow_self]
    exact lookup_insertEntry_self ..
  rw [hset, cell_of_own hr ha hf hc, if_neg (by simp [hne]), hnew, Option.map_some, Record.getD_eq,
    Record.lookup_insert_self]
  rfl

/-- Writing a column leaves what a row holds in any column, but for the value written under its name. -/
theorem cell_setCell (hk : k ∈ st.keys a) (pk v : Value) :
    cell reg (setCell reg st m pk name v) a k f.name = cell reg st a k f.name ∨
      name = f.name ∧ cell reg (setCell reg st m pk name v) a k f.name = v := by
  unfold setCell
  split
  · exact .inl rfl
  · rename_i owner howner
    split
    · rename_i row hrow
      by_cases he : a = owner
      · subst he
        by_cases hks : k = Keyed.seat (st.table a).rows pk
        · -- The row is the one written to.
          have hold : st.row? a k = some row := by
            rw [hks] at hk ⊢
            exact (row?_seat hk).trans hrow
          have hnew : (st.setRow a (Keyed.seat (st.table a).rows pk) (row.insert name v)).row? a k =
              some (row.insert name v) := by
            rw [← hks, row?_of_mem (mem_keys_setRow.mpr (.inl rfl)), table_setRow_self]
            exact lookup_insertEntry_self ..
          rw [cell_of_own hr ha hf hc, cell_of_own hr ha hf hc, hold, hnew]
          split
          · exact .inl rfl
          · by_cases hname : name = f.name
            · subst hname
              refine .inr ⟨rfl, ?_⟩
              simp only [Option.map_some, Record.getD_eq, Record.lookup_insert_self, Option.getD_some]
            · refine .inl ?_
              simp only [Option.map_some, Record.getD_eq, Record.lookup_insert_ne row (Ne.symm hname)]
        · exact .inl (cell_congr hr ha hf hc (row?_setRow_ne _ hk hks))
      · have hown := hr.mem_models hm (columnOwner?_mem howner)
        refine .inl (cell_congr hr ha hf hc (row?_congr (congrArg Table.rows ?_) k))
        exact table_setRow_of_ne hr hown ha he ..
    · exact .inl rfl

/-- An update of other columns leaves what a row holds in a column. -/
theorem cell_overwrite_of_ne (hk : k ∈ st.keys a) (hvalues : ∀ e ∈ values, e.1 ≠ f.name) (pks : List Value) :
    cell reg (overwrite reg m values pks st) a k f.name = cell reg st a k f.name := by
  have hstep : ∀ after : Store, k ∈ after.keys a ∧ cell reg after a k f.name = cell reg st a k f.name → ∀ pk, ∀ e ∈ values,
      k ∈ (setCell reg after m pk e.1 e.2).keys a ∧
        cell reg (setCell reg after m pk e.1 e.2) a k f.name = cell reg st a k f.name := by
    rintro after ⟨hk, hcell⟩ pk e he
    refine ⟨keys_subset_setCell after m pk e.1 e.2 a hk, ?_⟩
    rcases cell_setCell hr hm ha hf hc hk pk e.2 with hsame | ⟨hname, _⟩
    · exact hsame.trans hcell
    · exact absurd hname (hvalues e he)
  have hall : k ∈ (overwrite reg m values pks st).keys a ∧
      cell reg (overwrite reg m values pks st) a k f.name = cell reg st a k f.name :=
    List.foldlRecOn pks _ ⟨hk, rfl⟩ fun _ hafter pk _ =>
      List.foldlRecOn values _ hafter fun after hafter e he => hstep after hafter pk e he
  exact hall.2

theorem Holds.setCell (h : Holds reg a k f P st) (hvalue : name = f.name → P v) (pk : Value) :
    Holds reg a k f P (setCell reg st m pk name v) where
  key := keys_subset_setCell st m pk name v a h.key
  root := keys_subset_setCell st m pk name v (reg.rootOf a) h.root
  cell := by
    let after := Store.setCell reg st m pk name v
    obtain hsame | ⟨hname, hcell⟩ : Store.cell reg after a k f.name = Store.cell reg st a k f.name ∨
        name = f.name ∧ Store.cell reg after a k f.name = v := cell_setCell hr hm ha hf hc h.key pk v
    · rw [hsame]
      exact h.cell
    · rw [hcell]
      exact hvalue hname

/-- An update leaves in a column what it holds or what it is updated with. -/
theorem Holds.overwrite (h : Holds reg a k f P st) (hvalues : ∀ e ∈ values, e.1 = f.name → P e.2)
    (pks : List Value) : Holds reg a k f P (overwrite reg m values pks st) := by
  refine List.foldlRecOn pks _ h fun _ h pk _ => ?_
  exact List.foldlRecOn values _ h fun _ h e he => h.setCell hr hm ha hf hc (hvalues e he) pk

/-- An update of a row leaves in a column what it is updated with. -/
theorem Holds.overwritten (h : Holds reg a k f P st) (howner : columnOwner? reg m f.name = some a)
    (hne : f.name ≠ "pk" ∧ f.name ≠ a.pkName) {pks : List Value} (hk : k ∈ pks) (hgiven : ∃ e ∈ values, e.1 = f.name)
    (hvalues : ∀ e ∈ values, e.1 = f.name → e.2 = v) :
    Holds reg a k f (· = v) (Store.overwrite reg m values pks st) := by
  have hany : Holds reg a k f (fun _ => True) st := ⟨h.key, h.root, trivial⟩
  obtain ⟨before, after, rfl⟩ := List.append_of_mem hk
  have hready : Holds reg a k f (fun _ => True) (Store.overwrite reg m values before st) :=
    hany.overwrite hr hm ha hf hc (fun _ _ _ => trivial) before
  have hsplit : Store.overwrite reg m values (before ++ k :: after) st = Store.overwrite reg m values after
      (values.foldl (fun st (name, v) => Store.setCell reg st m k name v) (Store.overwrite reg m values before st)) := by
    simp only [Store.overwrite, List.foldl_append, List.foldl_cons]
  rw [hsplit]
  refine Holds.overwrite hr hm ha hf hc ?_ hvalues after
  generalize Store.overwrite reg m values before st = st at hready
  obtain ⟨e, he, hname⟩ := hgiven
  obtain ⟨first, rest, rfl⟩ := List.append_of_mem he
  rw [List.foldl_append, List.foldl_cons]
  -- Once the value is written, whatever else is written leaves it or writes it again.
  refine List.foldlRecOn rest _ ?_ fun _ h e' he' =>
    h.setCell hr hm ha hf hc (hvalues e' (List.mem_append_right _ (List.mem_cons_of_mem _ he'))) k
  have hfirst := List.foldlRecOn (motive := Holds reg a k f fun _ => True) first
    (fun st (name, v) => Store.setCell reg st m k name v) hready
    fun _ h e' _ => h.setCell hr hm ha hf hc (fun _ => trivial) k
  obtain ⟨name, v'⟩ := e
  have hvalue : name = f.name → True := fun _ => trivial
  have hput : Holds reg a k f (fun _ => True) (Store.setCell reg _ m k name v') :=
    hfirst.setCell hr hm ha hf hc hvalue k
  refine ⟨hput.key, hput.root, ?_⟩
  obtain rfl : name = f.name := hname
  obtain rfl : v' = v := hvalues _ he rfl
  exact cell_setCell_self hr ha hf hc howner hne hfirst.key v'

/-- An insert puts a key into the tables that was not in that of the root. -/
theorem Holds.insert {now : Instant} (h : Holds reg a k f P st)
    (hinsert : insert reg now st m values = .ok (pk, st')) : Holds reg a k f P st' where
  key := keys_subset_insert hinsert a h.key
  root := keys_subset_insert hinsert (reg.rootOf a) h.root
  cell := by
    obtain ⟨_, _, _, _, hnew, _⟩ := insert_eq_ok hinsert
    have hrow : st'.row? a k = st.row? a k := by
      rcases insert_rows hr hm hinsert ha with ⟨hl, row, hrows⟩ | ⟨_, htable⟩
      · have hne : k ≠ pk := by
          rintro rfl
          rw [← hr.rootOf_of_mem_lineage hm hl, contains_of_mem h.root] at hnew
          cases hnew
        exact (row?_congr hrows k).trans (row?_setRow_ne row h.key hne)
      · exact row?_congr (congrArg Table.rows htable) k
    rw [cell_congr hr ha hf hc hrow]
    exact h.cell

/-- An insert below a parent puts a key into one table that was not in it. -/
theorem Holds.insertChild {now : Instant} (h : Holds reg a k f P st)
    (hinsert : insertChild reg now st m values = .ok st') : Holds reg a k f P st' where
  key := keys_subset_insertChild hinsert a h.key
  root := keys_subset_insertChild hinsert (reg.rootOf a) h.root
  cell := by
    obtain ⟨pk, _, _, _, _, hnew, rfl, _⟩ := insertChild_eq_ok hinsert
    have hrow : (st.setRow m pk (localRow reg now m pk values)).row? a k = st.row? a k := by
      by_cases he : a = m
      · subst he
        exact row?_setRow_ne _ h.key fun hk => not_mem_of_contains hnew (hk ▸ h.key)
      · exact row?_congr (congrArg Table.rows (table_setRow_of_ne hr hm ha he ..)) k
    rw [cell_congr hr ha hf hc hrow]
    exact h.cell

end Frames

/-! ## The row of an insert -/

section Inserted

variable (hr : reg.Rooted) (hm : m ∈ reg.models) {now : Instant} (h : insert reg now st m values = .ok (pk, st'))
include hr hm h

omit h in
/-- The rows of a lineage stand under their key. -/
theorem row?_setRows (row : Model → Record) (k : Value) (st : Store) (hl : a ∈ reg.lineage m) :
    (setRows row k st (reg.lineage m).reverse).row? a k = some (row a) := by
  have hnd : ((reg.lineage m).reverse.map Model.name).Nodup := by
    rw [List.map_reverse, List.nodup_reverse]
    exact hr.nodup_lineage hm
  have hrows := table_setRows_mem row k st hnd (List.mem_reverse.mpr hl)
  rw [row?_of_mem, hrows]
  · exact lookup_insertEntry_self ..
  · rw [keys, hrows]
    exact mem_keys_insertEntry.mpr (.inl rfl)

/-- An insert leaves a row under the new key in the table of every model of the lineage. -/
theorem row?_insert (hl : a ∈ reg.lineage m) : st'.row? a pk = some (localRow reg now a pk values) := by
  obtain ⟨_, _, _, _, _, rfl, _⟩ := insert_eq_ok h
  exact row?_setRows hr hm (fun level => localRow reg now level pk values) pk _ hl

omit hr hm h in
/-- The row that is made for an insert has what is given for a column, or what the column starts with. -/
theorem lookup_localRow (pk : Value) (hf : f ∈ a.own) (hc : f.isConcrete)
    (hvalue : ∀ g ∈ reg.localColumns a, g.name = f.name → g.primaryKey = false ∧
      (values.get? f.name).getD (g.initial now) = v) :
    (localRow reg now a pk values).lookup f.name = some v := by
  refine Record.lookup_extend_of_mem [] (fun e he hname => ?_) ⟨_, List.mem_map_of_mem (mem_localColumns hf hc), rfl⟩
  obtain ⟨g, hg, rfl⟩ := List.mem_map.mp he
  obtain ⟨hkey, hv⟩ := hvalue g hg hname
  simp only at hname
  simp [hkey, hname, hv]

/-- A new row has what is given for a column, or what the column starts with. -/
theorem cell_insert_getD (hl : a ∈ reg.lineage m) (hf : f ∈ a.own) (hc : f.isConcrete)
    (hne : f.name ≠ "pk" ∧ f.name ≠ a.pkName) (hvalue : ∀ g ∈ reg.localColumns a, g.name = f.name →
      g.primaryKey = false ∧ (values.get? f.name).getD (g.initial now) = v) : cell reg st' a pk f.name = v := by
  rw [cell_of_own hr (hr.mem_models hm hl) hf hc, if_neg (by simp [hne]), row?_insert hr hm h hl, Option.map_some,
    Record.getD_eq, lookup_localRow pk hf hc hvalue]
  rfl

/-- A new row has what is given for a column. -/
theorem cell_insert (hl : a ∈ reg.lineage m) (hf : f ∈ a.own) (hc : f.isConcrete)
    (hne : f.name ≠ "pk" ∧ f.name ≠ a.pkName) (hbeside : ∀ g ∈ reg.localColumns a, g.name = f.name → g.primaryKey = false)
    (hv : values.get? f.name = some v) : cell reg st' a pk f.name = v :=
  cell_insert_getD hr hm h hl hf hc hne fun g hg hname => ⟨hbeside g hg hname, hv ▸ rfl⟩

end Inserted

end RecordMapper.Store

namespace RecordMapper.Store

variable {reg : Registry} {st st' : Store} {m m' : Model} {pk k v : Value} {values : Record} {name : String}

/-! ## Stores that differ in one row -/

/-- Two stores that differ at most in one row of a model, and in what the model's table has counted. -/
structure SameBut (reg : Registry) (m : Model) (pk : Value) (st st' : Store) : Prop where
  others : ∀ m' ∈ reg.models, m' ≠ m → st'.table m' = st.table m'
  rows : eraseEntry (st'.table m).rows pk = eraseEntry (st.table m).rows pk

namespace SameBut

theorem refl (reg : Registry) (m : Model) (pk : Value) (st : Store) : SameBut reg m pk st st := ⟨fun _ _ _ => rfl, rfl⟩

theorem trans {st'' : Store} (h : SameBut reg m pk st st') (h' : SameBut reg m pk st' st'') : SameBut reg m pk st st'' where
  others m' hm' hne := (h'.others m' hm' hne).trans (h.others m' hm' hne)
  rows := h'.rows.trans h.rows

/-- Every other row is the same, in whichever table it stands. -/
theorem lookup (h : SameBut reg m pk st st') (hm' : m' ∈ reg.models) (hne : m' ≠ m ∨ k ≠ pk) :
    (st'.table m').rows.lookup k = (st.table m').rows.lookup k := by
  by_cases hm : m' = m
  · subst hm
    have hk : k ≠ pk := hne.resolve_left fun h => h rfl
    rw [← lookup_eraseEntry_ne _ hk, h.rows, lookup_eraseEntry_ne _ hk]
  · rw [h.others m' hm' hm]

end SameBut

theorem sameBut_setRow (hr : reg.Rooted) (hm : m ∈ reg.models) (pk : Value) (row : Record) :
    SameBut reg m pk st (st.setRow m pk row) where
  others _ hm' hne := table_setRow_of_ne hr hm hm' hne ..
  rows := by rw [table_setRow_self, eraseEntry_insertEntry]

/-! ## Rows of a model without a parent -/

section Alone

variable (hr : reg.Rooted) (hm : m ∈ reg.models) (htop : m.parent = none)
include hr hm htop

theorem sameBut_setCell (hplain : pk.isPlain) (name : String) (v : Value) :
    SameBut reg m pk st (setCell reg st m pk name v) := by
  unfold setCell
  split
  · exact .refl ..
  · rename_i owner howner
    obtain rfl : owner = m := by
      have hl := columnOwner?_mem howner
      rwa [reg.lineage_of_top htop, List.mem_singleton] at hl
    split
    · rw [Keyed.seat_of_isPlain hplain]
      exact sameBut_setRow hr hm pk _
    · exact .refl ..

/-- Columns that are written into the row of one key. -/
theorem sameBut_overwrite (hplain : pk.isPlain) {pks : List Value} (hpks : ∀ k ∈ pks, k = pk) (values : Record) :
    SameBut reg m pk st (overwrite reg m values pks st) := by
  refine List.foldlRecOn (motive := SameBut reg m pk st) pks _ (.refl ..) fun _ h k hk => ?_
  obtain rfl := hpks k hk
  exact List.foldlRecOn (motive := SameBut reg m k st) values _ h fun _ h e _ =>
    h.trans (sameBut_setCell hr hm htop hplain e.1 e.2)

theorem sameBut_insert {now : Instant} (h : insert reg now st m values = .ok (pk, st')) : SameBut reg m pk st st' where
  others m' hm' hne := by
    rcases insert_rows hr hm h hm' with ⟨hl, _⟩ | ⟨_, htable⟩
    · rw [reg.lineage_of_top htop, List.mem_singleton] at hl
      exact absurd hl hne
    · exact htable
  rows := by
    rcases insert_rows hr hm h hm with ⟨_, row, hrows⟩ | ⟨hout, _⟩
    · rw [hrows]
      exact (sameBut_setRow hr hm pk row).rows
    · exact absurd (reg.self_mem_lineage m) hout

omit hr hm in
/-- The key of a new row is new to the table. -/
theorem not_mem_of_insert {now : Instant} (h : insert reg now st m values = .ok (pk, st')) : pk ∉ st.keys m := by
  obtain ⟨_, _, _, _, hnew, _⟩ := insert_eq_ok h
  rw [reg.rootOf_of_top htop] at hnew
  exact not_mem_of_contains hnew

end Alone

/-- Where no key is a float, a plain key selects its own row at most. -/
theorem eq_of_mem_select_pkIn (hself : ∀ k, pathValues reg st m k m.pkName = .ok [k])
    (hfloat : ∀ k ∈ st.keys m, ∀ x, k ≠ .float x) (hplain : pk.isPlain) {pks : List Value}
    (h : select reg st ((Queryset.all m).pkIn [pk]) = .ok pks) : ∀ k ∈ pks, k = pk ∧ pk ∈ st.keys m := by
  rw [select_keys hself] at h
  cases h
  intro k hk
  obtain ⟨hmem, hholds⟩ := List.mem_filter.mp hk
  obtain ⟨_, w, hw, heq⟩ := holds_oneOf_iff.mp hholds
  obtain rfl := List.mem_singleton.mp hw
  obtain rfl := (Value.numEq_iff_of_ne_float (hfloat k hmem) hplain).mp heq
  exact ⟨rfl, hmem⟩

end RecordMapper.Store
