import RecordMapper.Proofs.Read.Narrowing
import RecordMapper.Read.Source

/-!
# Heads — the first record of each row

Columns with several values on a row multiply its records. Of all these
the first is told by the first value of every column, where the last of
several columns with one label decides (`lookup_firstRecord`). If the
records of every row bear its key, the first rows of a fetch are the
first records of the selected rows (`firstRows_fetch_keyed`).
-/

namespace RecordMapper

/-- A record extended by entries has under a name what the last of them under that name says. -/
theorem Record.lookup_extend_last (r : Record) {before after : Record} {name : String} {v : Value}
    (h : ∀ e ∈ after, e.1 ≠ name) : (r.extend (before ++ (name, v) :: after)).lookup name = some v := by
  have happend : r.extend (before ++ (name, v) :: after) = ((r.extend before).insert name v).extend after := by
    rw [extend, List.foldl_append, List.foldl_cons]
    rfl
  rw [happend, lookup_extend_of_not_mem _ h, lookup_insert_self]

/-! ## Blocks of records -/

section Blocks

variable {pkName : String} {make : Value → Record} {pks : List Value}

/-- Of rows with one key the first is added. -/
theorem foldl_addFirst_block {own : List Record} {row : Record} (hhead : own.head? = some row)
    (h : ∀ row' ∈ own, row'.getD pkName = row.getD pkName) (acc : Keyed Record) :
    own.foldl (addFirst pkName) acc = addFirst pkName acc row := by
  cases own with
  | nil => cases hhead
  | cons first rest =>
      obtain rfl : first = row := Option.some.inj hhead
      rw [List.foldl_cons]
      refine foldl_addFirst_of_mem fun row' hrow' => (mem_keys_addFirst acc first _).mpr (.inr ?_)
      exact h row' (List.mem_cons_of_mem first hrow')

/-- Blocks of records, each with a key of its own, have as first rows those that begin the blocks. -/
theorem firstRows_blocks {groups : List (List Record)}
    (h : List.Forall₂ (fun pk own => own.head? = some (make pk) ∧ ∀ row ∈ own, row.getD pkName = pk) pks groups) :
    firstRows pkName groups.flatten = firstRows pkName (pks.map make) := by
  suffices hadd : ∀ acc : Keyed Record,
      groups.flatten.foldl (addFirst pkName) acc = (pks.map make).foldl (addFirst pkName) acc from hadd []
  induction h with
  | nil => exact fun acc => rfl
  | @cons pk own pks groups hown _ ih =>
      intro acc
      obtain ⟨hhead, hkey⟩ := hown
      have hfirst : (make pk).getD pkName = pk := hkey _ (List.mem_of_mem_head? hhead)
      rw [List.flatten_cons, List.foldl_append, List.map_cons, List.foldl_cons,
        foldl_addFirst_block hhead (fun row hrow => (hkey row hrow).trans hfirst.symm)]
      exact ih _

/-- Rows that are made for keys, and bear them, have as first rows those of the distinct keys. -/
theorem firstRows_map (h : ∀ pk ∈ pks, (make pk).getD pkName = pk) :
    firstRows pkName (pks.map make) = (distinctOf pks).map fun pk => (pk, make pk) := by
  have hkeys : (firstRows pkName (pks.map make)).map Prod.fst = distinctOf pks := by
    rw [keys_firstRows, List.map_map]
    refine congrArg distinctOf (Eq.trans (List.map_congr_left fun pk hpk => ?_) (List.map_id pks))
    exact h pk hpk
  rw [← hkeys, List.map_map]
  refine Eq.trans (List.map_id _).symm (List.map_congr_left fun e he => ?_)
  obtain ⟨hkey, hmem⟩ := (firstRows_spec pkName _).2 e he
  obtain ⟨pk, hpk, hmade⟩ := List.mem_map.mp hmem
  obtain rfl : pk = e.1 := by rw [← hkey, ← hmade, h pk hpk]
  exact Prod.ext rfl hmade.symm

end Blocks

/-! ## Rows in the order of keys -/

/-- Those of the selected keys that are meant, each once: in the order of the keys that are asked for, if there are
any. -/
def Request.picked (r : Request) (pks : List Value) : List Value :=
  match r.order with
  | some wanted => wanted.filter (· ∈ pks)
  | none => distinctOf pks

theorem Request.mem_of_picked {r : Request} {pks : List Value} {pk : Value} (h : pk ∈ r.picked pks) : pk ∈ pks := by
  rw [picked] at h
  split at h
  · exact of_decide_eq_true (List.mem_filter.mp h).2
  · exact mem_distinctOf.mp h

/-- Rows whose first rows are made for the selected keys come down to those made for the keys that are meant. -/
theorem distinctRows_of_keyed {request : Request} {pkName : String} {rows : List Record} {make : Value → Record}
    {pks : List Value} (hnd : ∀ wanted ∈ request.order, wanted.Nodup)
    (hplain : ∀ wanted ∈ request.order, ∀ k ∈ wanted, k.isPlain)
    (h : firstRows pkName rows = (distinctOf pks).map fun pk => (pk, make pk)) :
    distinctRows request.order pkName rows = (request.picked pks).map make := by
  rw [distinctRows_eq, Request.picked, h]
  cases horder : request.order with
  | none =>
      rw [List.map_map]
      rfl
  | some wanted =>
      have hfound : ∀ k, ((distinctOf pks).map fun pk => (pk, make pk)).lookup k =
          if k ∈ pks then some (make k) else none := by
        intro k
        have hentries : (((distinctOf pks).map fun pk => (pk, make pk)).map Prod.fst) = distinctOf pks := by
          rw [List.map_map]
          exact List.map_id _
        split
        · rename_i hk
          have hdistinct : (((distinctOf pks).map fun pk => (pk, make pk)).map Prod.fst).Nodup := by
            rw [hentries]
            exact nodup_distinctOf pks
          rw [lookup_eq_some_iff_mem hdistinct]
          exact List.mem_map.mpr ⟨k, mem_distinctOf.mpr hk, rfl⟩
        · rename_i hk
          rw [lookup_eq_none_iff_not_mem_keys, hentries, mem_distinctOf]
          exact hk
      simp only [Keyed.drain_of_isPlain (hnd wanted horder) (hplain wanted horder), hfound]
      clear hnd hplain hfound horder
      induction wanted with
      | nil => rfl
      | cons k rest ih =>
          by_cases hk : k ∈ pks
          · simpa [hk] using ih
          · simpa [hk] using ih

/-! ## First records -/

namespace Store

variable {reg : Registry} {st : Store} {m : Model} {named : Named} {columns : List SelectColumn} {pk : Value}
  {e : Expression}

/-- The first value of an expression on a row; null if it has none. -/
def firstCell (reg : Registry) (st : Store) (m : Model) (named : Named) (pk : Value) (e : Expression) : Value :=
  match columnCells reg st m named pk e with
  | .ok (v :: _) => v
  | _ => .null

/-- The first record of a row. -/
def firstRecord (reg : Registry) (st : Store) (m : Model) (named : Named) (columns : List SelectColumn) (pk : Value) :
    Record :=
  Record.extend [] (columns.map fun c => (c.label, firstCell reg st m named pk c.expr))

theorem columnCells_eq_firstCell {cells : List Value} (h : columnCells reg st m named pk e = .ok cells) :
    ∃ more, cells = firstCell reg st m named pk e :: more := by
  obtain ⟨v, more, rfl⟩ := List.exists_cons_of_ne_nil (columnCells_ne_nil h)
  exact ⟨more, by rw [firstCell, h]⟩

/-- Columns that are put into records put their first values into the first of them. -/
theorem head?_addCells {before own : List Record} (h : columns.foldlM (addCells reg st m named pk) before = .ok own) :
    own.head? = before.head?.map fun row =>
      row.extend (columns.map fun c => (c.label, firstCell reg st m named pk c.expr)) := by
  induction columns generalizing before with
  | nil =>
      cases h
      exact Option.map_id'.symm
  | cons column rest ih =>
      rw [List.foldlM_cons] at h
      obtain ⟨after, hstep, h⟩ := Outcome.bind_eq_ok.mp h
      obtain ⟨cells, hcells, hstep⟩ := Outcome.bind_eq_ok.mp hstep
      cases hstep
      obtain ⟨more, rfl⟩ := columnCells_eq_firstCell hcells
      rw [ih h]
      cases before <;> rfl

theorem head?_rowRecords {own : List Record} (h : rowRecords reg st m named columns pk = .ok own) :
    own.head? = some (firstRecord reg st m named columns pk) := head?_addCells h

/-- Every column that is fetched has values on the row. -/
theorem columnCells_of_rowRecords {own : List Record} (h : rowRecords reg st m named columns pk = .ok own)
    {c : SelectColumn} (hc : c ∈ columns) :
    ∃ more, columnCells reg st m named pk c.expr = .ok (firstCell reg st m named pk c.expr :: more) := by
  refine Outcome.foldlM_reaches (P := fun _ => ∃ more, columnCells reg st m named pk c.expr =
    .ok (firstCell reg st m named pk c.expr :: more)) (fun _ _ _ _ hp _ => hp) hc (fun _ _ hstep => ?_) h
  obtain ⟨cells, hcells, _⟩ := Outcome.bind_eq_ok.mp hstep
  obtain ⟨more, rfl⟩ := columnCells_eq_firstCell hcells
  exact ⟨more, hcells⟩

/-- Under a label the last column with that label decides. -/
theorem lookup_firstRecord {before after : List SelectColumn} {c : SelectColumn} (h : ∀ c' ∈ after, c'.label ≠ c.label) :
    (firstRecord reg st m named (before ++ c :: after) pk).lookup c.label = some (firstCell reg st m named pk c.expr) := by
  rw [firstRecord, List.map_append, List.map_cons]
  exact Record.lookup_extend_last [] (List.forall_mem_map.mpr h)

/-- Under a label that no column has stands nothing. -/
theorem lookup_firstRecord_of_not_mem {label : String} (h : ∀ c ∈ columns, c.label ≠ label) :
    (firstRecord reg st m named columns pk).lookup label = none := by
  rw [firstRecord, Record.lookup_extend_of_not_mem [] (List.forall_mem_map.mpr h)]
  rfl

/-- What is fetched has as first rows the first records of the selected rows, if the records of a row bear its key. -/
theorem firstRows_fetch_keyed {qs : Queryset} {pkName : String} {fetched : List Record}
    (hkey : ∀ pk own, rowRecords reg st qs.model (Expression.annotationsOf reg st qs) columns pk = .ok own →
      ∀ row ∈ own, row.getD pkName = pk)
    (h : st.fetch reg qs columns = .ok fetched) : ∃ pks, select reg st qs = .ok pks ∧
      (∀ pk ∈ pks, ∃ own, rowRecords reg st qs.model (Expression.annotationsOf reg st qs) columns pk = .ok own) ∧
      firstRows pkName fetched = (distinctOf pks).map fun pk =>
        (pk, firstRecord reg st qs.model (Expression.annotationsOf reg st qs) columns pk) := by
  obtain ⟨-, pks, own, hpks, hown, rfl⟩ := fetch_eq_ok_iff.mp h
  have hblocks : List.Forall₂ (fun pk own =>
      own.head? = some (firstRecord reg st qs.model (Expression.annotationsOf reg st qs) columns pk) ∧
        ∀ row ∈ own, row.getD pkName = pk) pks (pks.map own) :=
    List.forall₂_map_right_iff.mpr (List.forall₂_same.mpr fun pk hpk =>
      ⟨head?_rowRecords (hown pk hpk), hkey pk (own pk) (hown pk hpk)⟩)
  refine ⟨pks, hpks, fun pk hpk => ⟨own pk, hown pk hpk⟩, ?_⟩
  rw [List.flatMap_def, firstRows_blocks hblocks]
  exact firstRows_map fun pk hpk =>
    hkey pk (own pk) (hown pk hpk) _ (List.mem_of_mem_head? (head?_rowRecords (hown pk hpk)))

end Store

end RecordMapper
