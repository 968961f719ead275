import RecordMapper.Proofs.Store.Cells

/-!
# Links — rows of through models

A `Link` is a pair of keys that the rows of a through model may link. An
insert of a row for a pair adds that one row and for another pair none, a
delete adds none, and what is written in other tables changes nothing.
A row that links a pair is found when the rows of its owner are looked
up, and it stays when those for other keys are deleted.
-/

namespace RecordMapper

namespace Store

variable {reg : Registry} {st st' : Store} {m related : Model} {now : Instant} {pk k v : Value}
  {values : Record} {qs : Queryset} {name : String} {n : Nat}

/-! ## Writes in other tables -/

/-- A change beside the table of a model. -/
def Beside (related : Model) (st st' : Store) : Prop := st'.table related = st.table related

theorem Beside.refl (st : Store) : Beside related st st := rfl

theorem Beside.trans {st'' : Store} (h : Beside related st st') (h' : Beside related st' st'') :
    Beside related st st'' := Eq.trans h' h

/-- A relation of stores that looks at the table of one model. -/
structure LooksAt (related : Model) (S : Store → Store → Prop) : Prop where
  refl : ∀ st, S st st
  after : ∀ {st st' st''}, Beside related st st' → S st' st'' → S st st''
  before : ∀ {st st' st''}, S st st' → Beside related st' st'' → S st st''

theorem LooksAt.beside {S : Store → Store → Prop} (h : LooksAt related S) (hbeside : Beside related st st') :
    S st st' :=
  h.before (h.refl st) hbeside

section Beside

variable (hout : related.name ∉ (reg.lineage m).map Model.name)
include hout

theorem ne_of_mem_lineage {level : Model} (h : level ∈ reg.lineage m) : related.name ≠ level.name :=
  fun hname => hout (hname ▸ List.mem_map_of_mem h)

theorem beside_insert (h : insert reg now st m values = .ok (pk, st')) : Beside related st st' := by
  obtain ⟨_, _, _, _, _, rfl, _⟩ := insert_eq_ok h
  have hrev : related.name ∉ (reg.lineage m).reverse.map Model.name := by
    rwa [List.map_reverse, List.mem_reverse]
  rw [Beside, table_setRows_ne _ _ _ hrev, table_noteKey_ne _ _ (ne_of_mem_lineage hout (reg.rootOf_mem_lineage m))]

theorem beside_insertChild (h : insertChild reg now st m values = .ok st') : Beside related st st' := by
  obtain ⟨_, _, _, _, _, _, rfl, _⟩ := insertChild_eq_ok h
  exact table_setRow_ne _ _ _ (ne_of_mem_lineage hout (reg.self_mem_lineage m))

theorem beside_setCell (st : Store) (pk : Value) (name : String) (v : Value) :
    Beside related st (setCell reg st m pk name v) := by
  unfold setCell
  split
  · rfl
  · rename_i owner howner
    split
    · exact table_setRow_ne _ _ _ (ne_of_mem_lineage hout (columnOwner?_mem howner))
    · rfl

theorem beside_update (hm : qs.model = m) (h : update reg st qs values = .ok (n, st')) : Beside related st st' := by
  obtain ⟨pks, _, rfl, _⟩ := update_eq_ok h
  rw [hm]
  refine List.foldlRecOn (motive := fun (after : Store) => Beside related st after) pks _ (.refl st)
    fun after hafter pk _ => ?_
  exact List.foldlRecOn (motive := fun (after : Store) => Beside related st after) values _ hafter
    fun after hafter e _ => hafter.trans (beside_setCell hout after pk e.1 e.2)

end Beside

theorem beside_delete (hspares : Spares reg qs.model related) (h : delete reg st qs = .ok (n, st')) :
    Beside related st st' := by
  obtain ⟨pks, _, _, rfl⟩ := delete_eq_ok h
  exact table_deleteRows hspares _ st pks

/-! ## Rows of an owner -/

/-- The rows of an owner are fetched in the order of the through model's table, with the key that each of them holds
of the other side. -/
theorem fetch_throughRows {own other : String} (hown : Reads reg m own) (hother : Reads reg m other) (owner : Value) :
    st.fetch reg (RelationWrite.throughRows m own owner) [.ofPath other] =
      .ok (((st.keys m).filter fun y => (Lookup.exact owner).holds (cell reg st m y own)).map
        fun y => [(other, cell reg st m y other)]) := by
  have hrecords : ∀ y, rowRecords reg st m (fun _ => none) [.ofPath other] y = .ok [[(other, cell reg st m y other)]] := by
    intro y
    simp only [rowRecords, SelectColumn.ofPath, columnCells, List.foldlM_cons, List.foldlM_nil]
    rw [hother st y]
    rfl
  have hselect : select reg st ((Queryset.all m).filter (.test own (.exact owner))) = _ := select_test hown (.exact owner)
  show (select reg st ((Queryset.all m).filter (.test own (.exact owner))) >>= fun pks =>
    pks.mapM (rowRecords reg st m (fun _ => none) [.ofPath other]) >>= fun rows => .ok rows.flatten) = _
  rw [hselect, Outcome.ok_bind, Outcome.mapM_ok fun y _ => hrecords y, Outcome.ok_bind, ← List.flatMap_def,
    List.map_eq_flatMap]

/-! ## Columns beside the key -/

/-- A column that a model declares, that is not its key and that its name leads to. -/
structure DataColumn (reg : Registry) (m : Model) (name : String) : Prop where
  declared : ∃ f ∈ m.own, f.isConcrete ∧ f.name = name
  beside : ∀ f ∈ reg.localColumns m, f.name = name → f.primaryKey = false
  ne_key : name ≠ "pk" ∧ name ≠ m.pkName
  column : IsColumn reg m name

namespace DataColumn

variable (hc : DataColumn reg m name) (hr : reg.Rooted) (hm : m ∈ reg.models)
include hc hr hm

/-- The column is read from the row in the table of the model. -/
theorem cell_eq (st : Store) (k : Value) :
    cell reg st m k name = ((st.row? m k).map (Record.getD · name)).getD .null := by
  obtain ⟨f, hf, hconcrete, rfl⟩ := hc.declared
  rw [cell_of_own hr hm hf hconcrete, if_neg]
  simp [hc.ne_key]

theorem cell_congr (h : st'.row? m k = st.row? m k) : cell reg st' m k name = cell reg st m k name := by
  rw [hc.cell_eq hr hm, hc.cell_eq hr hm, h]

/-- A new row has what is given for the column. -/
theorem cell_insert (h : insert reg now st m values = .ok (pk, st')) (hv : values.get? name = some v) :
    cell reg st' m pk name = v := by
  obtain ⟨f, hf, hconcrete, rfl⟩ := hc.declared
  exact Store.cell_insert hr hm h (reg.self_mem_lineage m) hf hconcrete hc.ne_key hc.beside hv

end DataColumn

end Store

/-! ## Links -/

/-- A pair of keys that rows of a through model may link, and the columns for them. -/
structure Link where
  through : Model
  own : String
  other : String
  owner : Value
  key : Value

namespace Link

open Store

variable {reg : Registry} {st st' : Store} {x : Link} {now : Instant} {y pk a b : Value} {n : Nat}

/-- The columns of a link are two columns of its through model. -/
structure Declared (reg : Registry) (x : Link) : Prop where
  rooted : reg.Rooted
  through : x.through ∈ reg.models
  own : DataColumn reg x.through x.own
  other : DataColumn reg x.through x.other
  apart : x.own ≠ x.other

/-- The row of a key links the pair. -/
structure LinkedBy (reg : Registry) (x : Link) (st : Store) (y : Value) : Prop where
  row : y ∈ st.keys x.through
  owner : cell reg st x.through y x.own = x.owner
  key : cell reg st x.through y x.other = x.key

/-- Some row whose key is plain links the pair. -/
def Linked (reg : Registry) (x : Link) (st : Store) : Prop := ∃ y, y.isPlain ∧ x.LinkedBy reg st y

/-- No row links the pair anew. -/
def AddsNone (reg : Registry) (x : Link) (st st' : Store) : Prop := ∀ y, x.LinkedBy reg st' y → x.LinkedBy reg st y

/-- At most one row links the pair anew. -/
def AddsOne (reg : Registry) (x : Link) (st st' : Store) : Prop :=
  ∀ y y', x.LinkedBy reg st' y → ¬x.LinkedBy reg st y → x.LinkedBy reg st' y' → ¬x.LinkedBy reg st y' → y = y'

theorem AddsNone.refl (x : Link) (st : Store) : x.AddsNone reg st st := fun _ => id

theorem AddsNone.trans {st'' : Store} (h : x.AddsNone reg st st') (h' : x.AddsNone reg st' st'') :
    x.AddsNone reg st st'' := fun y hy => h y (h' y hy)

theorem AddsNone.addsOne (h : x.AddsNone reg st st') : x.AddsOne reg st st' :=
  fun y _ hy hnew => absurd (h y hy) hnew

/-- What is new at the end of a change is new already where nothing was added before. -/
theorem AddsOne.after {st'' : Store} (h : x.AddsNone reg st st') (h' : x.AddsOne reg st' st'') :
    x.AddsOne reg st st'' :=
  fun y y' hy hnew hy' hnew' => h' y y' hy (mt (h y) hnew) hy' (mt (h y') hnew')

theorem AddsOne.before {st'' : Store} (h : x.AddsOne reg st st') (h' : x.AddsNone reg st' st'') :
    x.AddsOne reg st st'' :=
  fun y y' hy hnew hy' hnew' => h y y' (h' y hy) hnew (h' y' hy') hnew'

namespace Declared

variable (hx : x.Declared reg)
include hx

theorem linkedBy_congr (h : st'.row? x.through y = st.row? x.through y)
    (hrow : y ∈ st'.keys x.through → y ∈ st.keys x.through) (hy : x.LinkedBy reg st' y) : x.LinkedBy reg st y where
  row := hrow hy.row
  owner := (hx.own.cell_congr hx.rooted hx.through h).symm.trans hy.owner
  key := (hx.other.cell_congr hx.rooted hx.through h).symm.trans hy.key

/-- The rows that link a pair are told by the table of the through model. -/
theorem addsNone_of_beside (h : Beside x.through st st') : x.AddsNone reg st st' :=
  fun _ hy => hx.linkedBy_congr (row?_congr (congrArg Table.rows h) _) (fun hrow => by rwa [keys, ← h]) hy

/-- An insert adds the row of the pair that is inserted. -/
theorem linkedBy_insert (h : insert reg now st x.through (Record.ofList [(x.own, a), (x.other, b)]) = .ok (pk, st'))
    (hy : x.LinkedBy reg st' y) : x.LinkedBy reg st y ∨ y = pk ∧ a = x.owner ∧ b = x.key := by
  by_cases hpk : y = pk
  · subst hpk
    have hown := hx.own.cell_insert hx.rooted hx.through h (v := a)
      (by simp [Record.get?, Record.ofList, entriesOf, insertEntry, hx.apart])
    have hother := hx.other.cell_insert hx.rooted hx.through h (v := b)
      (by simp [Record.get?, Record.ofList, entriesOf, insertEntry, List.lookup_cons, hx.apart,
        beq_eq_false_iff_ne.mpr hx.apart.symm])
    exact .inr ⟨rfl, hown.symm.trans hy.owner, hother.symm.trans hy.key⟩
  · rcases insert_rows hx.rooted hx.through h hx.through with ⟨_, row, hrows⟩ | ⟨_, htable⟩
    · have hold : y ∈ st.keys x.through :=
        (mem_keys_setRow.mp (keys_congr hrows ▸ hy.row)).resolve_left hpk
      exact .inl (hx.linkedBy_congr ((row?_congr hrows y).trans (row?_setRow_ne row hold hpk)) (fun _ => hold) hy)
    · exact .inl (hx.addsNone_of_beside htable y hy)

theorem insert_addsOne (h : insert reg now st x.through (Record.ofList [(x.own, a), (x.other, b)]) = .ok (pk, st')) :
    x.AddsOne reg st st' := by
  intro y y' hy hnew hy' hnew'
  obtain ⟨rfl, _⟩ := (hx.linkedBy_insert h hy).resolve_left hnew
  exact ((hx.linkedBy_insert h hy').resolve_left hnew').1.symm

theorem insert_addsNone (hne : a = x.owner → b ≠ x.key)
    (h : insert reg now st x.through (Record.ofList [(x.own, a), (x.other, b)]) = .ok (pk, st')) :
    x.AddsNone reg st st' :=
  fun _ hy => (hx.linkedBy_insert h hy).resolve_right fun ⟨_, ha, hb⟩ => hne ha hb

theorem delete_addsNone {qs : Queryset} (h : delete reg st qs = .ok (n, st')) :
    x.AddsNone reg st st' := by
  have hshrinks := delete_shrinks h
  exact fun y hy => hx.linkedBy_congr (hshrinks.row _ y hy.row) (fun hrow => (hshrinks.keys _).subset hrow) hy

/-- A pair that links an owner to one of some keys stays linked when the owner's rows for other keys are
deleted. -/
theorem delete_linked (hcascades : ∀ e ∈ referringColumns reg (family reg x.through), Spares reg e.1 x.through)
    (hkey : x.key.isPlain) {listed : List Value} (hlisted : x.key ∈ listed)
    (h : delete reg st ((RelationWrite.throughRows x.through x.own a).exclude (.test x.other (.oneOf listed))) =
      .ok (n, st')) : x.AddsNone reg st st' ∧ (x.Linked reg st → x.Linked reg st') := by
  refine ⟨hx.delete_addsNone h, fun ⟨y, hplain, hy⟩ => ⟨y, hplain, ?_⟩⟩
  have hshrinks : Shrinks st st' := delete_shrinks h
  obtain ⟨pks, hpks, _, rfl⟩ := delete_eq_ok h
  have hnot : y ∉ pks := by
    refine not_mem_select_exclude hx.other.column.reads ?_ hpks
    rw [hy.key]
    exact holds_oneOf_of_isPlain hlisted hkey
  have hrow := mem_keys_deleteRows hy.row hplain hcascades (st.size + 1) hnot
  exact hx.linkedBy_congr (hshrinks.row _ y hrow).symm (fun _ => hrow) hy

/-- A row that links an owner to a key is found among the owner's rows. -/
theorem mem_fetch (howner : x.owner.isPlain) (hy : x.LinkedBy reg st y) {rows : List Record}
    (h : st.fetch reg (RelationWrite.throughRows x.through x.own x.owner) [.ofPath x.other] = .ok rows) :
    ∃ row ∈ rows, row.get? x.other = some x.key := by
  rw [fetch_throughRows hx.own.column.reads hx.other.column.reads] at h
  cases h
  refine ⟨_, List.mem_map_of_mem (List.mem_filter.mpr ⟨hy.row, ?_⟩), ?_⟩
  · rw [hy.owner]
    exact holds_exact_of_isPlain howner
  · rw [Record.get?, List.lookup_cons_self, hy.key]

end Declared

end Link

end RecordMapper
