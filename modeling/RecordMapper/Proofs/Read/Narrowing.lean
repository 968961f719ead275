import Mathlib.Data.List.Induction
import RecordMapper.Proofs.Read.Fetched
import RecordMapper.Proofs.Read.Plans

/-!
# Narrowing — plans with the parts of some names alone

A plan can be restricted to the names that pass a test. It is what is
made when the fields of those names are added alone (`addFields_restrict`),
what it fetches has as first rows the restricted first rows
(`firstRows_fetch`), and it finishes a restricted row to the same values,
if the properties of these names have all they read (`finish_restrict`).
-/

/-!
## First rows — one row for each key

Of rows with one key a read goes on with the first. Which rows these are
is told by the keys alone: rows that are replaced by blocks, each of
which begins with the row made anew and keeps to its key, have as first
rows the first rows made anew (`foldl_addFirst_flatMap`). What first rows
are picked from first rows is what is picked from all rows
(`foldl_addFirst_firstRows`).
-/

namespace RecordMapper

section FirstRows

variable {pkName : String} {make : Record → Record} {rows : List Record} {acc : Keyed Record}

/-- Entries with one more row, unless its key is there. -/
def addFirst (pkName : String) (acc : Keyed Record) (row : Record) : Keyed Record :=
  if (acc.lookup (row.getD pkName)).isSome then acc else acc ++ [(row.getD pkName, row)]

theorem firstRows_eq (pkName : String) (rows : List Record) :
    firstRows pkName rows = rows.foldl (addFirst pkName) [] := rfl

theorem addFirst_of_mem {row : Record} (h : row.getD pkName ∈ acc.map Prod.fst) : addFirst pkName acc row = acc :=
  if_pos (lookup_isSome_iff_mem_keys.mpr h)

theorem addFirst_of_not_mem {row : Record} (h : row.getD pkName ∉ acc.map Prod.fst) :
    addFirst pkName acc row = acc ++ [(row.getD pkName, row)] :=
  if_neg fun hsome => h (lookup_isSome_iff_mem_keys.mp hsome)

theorem mem_keys_addFirst (acc : Keyed Record) (row : Record) (k : Value) :
    k ∈ (addFirst pkName acc row).map Prod.fst ↔ k ∈ acc.map Prod.fst ∨ k = row.getD pkName := by
  by_cases h : row.getD pkName ∈ acc.map Prod.fst
  · rw [addFirst_of_mem h]
    constructor
    · exact Or.inl
    · rintro (hk | rfl)
      · exact hk
      · exact h
  · rw [addFirst_of_not_mem h]
    simp

theorem mem_keys_foldl_addFirst (rows : List Record) (acc : Keyed Record) (k : Value) :
    k ∈ (rows.foldl (addFirst pkName) acc).map Prod.fst ↔
      k ∈ acc.map Prod.fst ∨ k ∈ rows.map (·.getD pkName) := by
  induction rows generalizing acc with
  | nil => simp
  | cons row rest ih => rw [List.foldl_cons, ih, mem_keys_addFirst, List.map_cons, List.mem_cons, or_assoc]

/-- Rows whose keys are there add nothing. -/
theorem foldl_addFirst_of_mem (h : ∀ row ∈ rows, row.getD pkName ∈ acc.map Prod.fst) :
    rows.foldl (addFirst pkName) acc = acc := by
  induction rows with
  | nil => rfl
  | cons row rest ih =>
      rw [List.foldl_cons, addFirst_of_mem (h row List.mem_cons_self)]
      exact ih fun row' hrow' => h row' (List.mem_cons_of_mem row hrow')

/-- What is there stays in front. -/
theorem exists_foldl_addFirst (pkName : String) (rows : List Record) (acc : Keyed Record) :
    ∃ more, rows.foldl (addFirst pkName) acc = acc ++ more := by
  induction rows generalizing acc with
  | nil => exact ⟨[], (List.append_nil acc).symm⟩
  | cons row rest ih =>
      rw [List.foldl_cons]
      by_cases h : row.getD pkName ∈ acc.map Prod.fst
      · rw [addFirst_of_mem h]
        exact ih acc
      · rw [addFirst_of_not_mem h]
        obtain ⟨more, hmore⟩ := ih (acc ++ [(row.getD pkName, row)])
        exact ⟨_, hmore.trans (List.append_assoc _ _ _)⟩

/-- The first of all rows is the first of its key. -/
theorem head?_firstRows (pkName : String) (rows : List Record) :
    (firstRows pkName rows).head? = rows.head?.map fun row => (row.getD pkName, row) := by
  cases rows with
  | nil => rfl
  | cons row rest =>
      rw [firstRows_eq, List.foldl_cons, addFirst_of_not_mem List.not_mem_nil]
      obtain ⟨more, hmore⟩ := exists_foldl_addFirst pkName rest ([] ++ [(row.getD pkName, row)])
      rw [hmore]
      rfl

/-- Blocks that begin with a row made anew and keep to its key add what the rows add, made anew. -/
theorem foldl_addFirst_flatMap {others : Record → List Record}
    (hmake : ∀ row, (make row).getD pkName = row.getD pkName)
    (hothers : ∀ row, ∀ row' ∈ others row, row'.getD pkName = row.getD pkName) (rows : List Record)
    (acc : Keyed Record) :
    (rows.flatMap fun row => make row :: others row).foldl (addFirst pkName) (acc.map fun e => (e.1, make e.2)) =
      (rows.foldl (addFirst pkName) acc).map fun e => (e.1, make e.2) := by
  induction rows generalizing acc with
  | nil => rfl
  | cons row rest ih =>
      have hkeys : (acc.map fun e => (e.1, make e.2)).map Prod.fst = acc.map Prod.fst := by
        rw [List.map_map]
        rfl
      have hfirst : addFirst pkName (acc.map fun e => (e.1, make e.2)) (make row) =
          (addFirst pkName acc row).map fun e => (e.1, make e.2) := by
        by_cases h : row.getD pkName ∈ acc.map Prod.fst
        · rw [addFirst_of_mem h, addFirst_of_mem (by rwa [hmake, hkeys])]
        · rw [addFirst_of_not_mem h, addFirst_of_not_mem (by rwa [hmake, hkeys]), List.map_append, hmake]
          rfl
      -- The other rows of the block have the key of its first.
      have hblock : (others row).foldl (addFirst pkName) ((addFirst pkName acc row).map fun e => (e.1, make e.2)) =
          (addFirst pkName acc row).map fun e => (e.1, make e.2) := by
        refine foldl_addFirst_of_mem fun row' hrow' => ?_
        rw [hothers row row' hrow', List.map_map]
        exact (mem_keys_addFirst acc row _).mpr (.inr rfl)
      rw [List.flatMap_cons, List.foldl_append, List.foldl_cons, hfirst, hblock, List.foldl_cons]
      exact ih _

theorem foldl_addFirst_map (hmake : ∀ row, (make row).getD pkName = row.getD pkName) (rows : List Record)
    (acc : Keyed Record) : (rows.map make).foldl (addFirst pkName) (acc.map fun e => (e.1, make e.2)) =
      (rows.foldl (addFirst pkName) acc).map fun e => (e.1, make e.2) := by
  have hrows : rows.map make = rows.flatMap fun row => [make row] := List.map_eq_flatMap
  rw [hrows]
  exact foldl_addFirst_flatMap hmake (fun _ _ h => absurd h List.not_mem_nil) rows acc

/-- First rows add what all rows add. -/
theorem foldl_addFirst_firstRows (rows : List Record) (acc : Keyed Record) :
    ((firstRows pkName rows).map Prod.snd).foldl (addFirst pkName) acc = rows.foldl (addFirst pkName) acc := by
  induction rows using List.reverseRecOn with
  | nil => rfl
  | append_singleton rows row ih =>
      rw [firstRows_eq] at ih ⊢
      rw [List.foldl_append, List.foldl_append, List.foldl_cons, List.foldl_nil, List.foldl_cons, List.foldl_nil]
      by_cases h : row.getD pkName ∈ (rows.foldl (addFirst pkName) []).map Prod.fst
      · have hseen : row.getD pkName ∈ rows.map (·.getD pkName) :=
          ((mem_keys_foldl_addFirst rows [] _).mp h).resolve_left List.not_mem_nil
        rw [addFirst_of_mem h, addFirst_of_mem ((mem_keys_foldl_addFirst rows acc _).mpr (.inr hseen)), ih]
      · rw [addFirst_of_not_mem h, List.map_append, List.foldl_append, ih]
        rfl

/-- Groups of rows whose first rows are those of others made anew have together the first rows of the others, made
anew. -/
theorem firstRows_flatten (hmake : ∀ row, (make row).getD pkName = row.getD pkName)
    {groups groups' : List (List Record)}
    (h : groups'.map (firstRows pkName) = groups.map fun own => (firstRows pkName own).map fun e => (e.1, make e.2)) :
    firstRows pkName groups'.flatten = (firstRows pkName groups.flatten).map fun e => (e.1, make e.2) := by
  suffices hadd : ∀ acc : Keyed Record,
      groups'.flatten.foldl (addFirst pkName) (acc.map fun e => (e.1, make e.2)) =
        (groups.flatten.foldl (addFirst pkName) acc).map fun e => (e.1, make e.2) from hadd []
  induction groups generalizing groups' with
  | nil =>
      rw [List.map_nil, List.map_eq_nil_iff] at h
      rw [h]
      exact fun acc => rfl
  | cons own groups ih =>
      cases groups' with
      | nil => cases h
      | cons own' groups' =>
          obtain ⟨hown, hrest⟩ := List.cons.inj h
          intro acc
          have hsnd : (firstRows pkName own').map Prod.snd = ((firstRows pkName own).map Prod.snd).map make := by
            rw [hown, List.map_map, List.map_map]
            rfl
          rw [List.flatten_cons, List.flatten_cons, List.foldl_append, List.foldl_append,
            ← foldl_addFirst_firstRows own', hsnd, foldl_addFirst_map hmake, foldl_addFirst_firstRows own]
          exact ih hrest _

end FirstRows

/-! ## Rows in the order of keys -/

namespace Keyed

variable {α β : Type} (make : α → β) (entries : Keyed α)

theorem lookup_map (k : Value) :
    (entries.map fun e => (e.1, make e.2)).lookup k = (entries.lookup k).map make := by
  induction entries with
  | nil => rfl
  | cons e rest ih =>
      rw [List.map_cons, List.lookup_cons, List.lookup_cons, ih]
      split <;> rfl

/-- What is made of entries is drained as they are. -/
theorem drain_map (ks : List Value) :
    drain (entries.map fun e => (e.1, make e.2)) ks = (drain entries ks).map (Option.map make) := by
  induction ks generalizing entries with
  | nil => rfl
  | cons k rest ih =>
      have hseat : seat (entries.map fun e => (e.1, make e.2)) k = seat entries k := by
        refine seat_congr ?_ k
        rw [List.map_map]
        rfl
      have herase : erase (entries.map fun e => (e.1, make e.2)) k =
          (erase entries k).map fun e => (e.1, make e.2) := by
        rw [erase, hseat, eraseEntry, List.filter_map]
        rfl
      rw [drain, drain, List.map_cons, get?, hseat, lookup_map, herase, ih]
      rfl

end Keyed

/-- Rows whose first rows are those of others made anew come down to the distinct rows of the others, made anew. -/
theorem distinctRows_of_firstRows {pkName : String} {make : Record → Record} {rows rows' : List Record}
    (h : firstRows pkName rows' = (firstRows pkName rows).map fun e => (e.1, make e.2)) (order : Option (List Value)) :
    distinctRows order pkName rows' = (distinctRows order pkName rows).map make := by
  rw [distinctRows_eq, distinctRows_eq, h]
  cases order with
  | none =>
      simp only [List.map_map]
      rfl
  | some pks =>
      simp only [Keyed.drain_map, List.filterMap_map, List.map_filterMap]
      rfl

end RecordMapper

namespace RecordMapper

/-! ## Fetching fewer columns -/

namespace Store

variable {reg : Registry} {st : Store} {m : Model} {named : Named} {columns : List SelectColumn} {pkName : String}
  {keeps : String → Bool}

/-- A record with its entries restricted. -/
def restrictEntry (keeps : String → Bool) (e : Value × Record) : Value × Record := (e.1, e.2.restrict keeps)

/-- Records with the values of a column put in. -/
def withCells (label : String) (cells : List Value) (records : List Record) : List Record :=
  records.flatMap fun r => cells.map fun v => r.insert label v

/-- Records with the values that a row has for one more column. -/
def addCells (reg : Registry) (st : Store) (m : Model) (named : Named) (pk : Value) (records : List Record)
    (column : SelectColumn) : Outcome (List Record) := do
  return withCells column.label (← columnCells reg st m named pk column.expr) records

theorem rowRecords_eq (pk : Value) :
    rowRecords reg st m named columns pk = columns.foldlM (addCells reg st m named pk) [[]] := rfl

/-- A column beside the key puts its first value into the first records. -/
theorem firstRows_withCells {label : String} (hlabel : label ≠ pkName) (v : Value) (vs : List Value)
    (records : List Record) : firstRows pkName (withCells label (v :: vs) records) =
      (firstRows pkName records).map fun e => (e.1, e.2.insert label v) := by
  have hkey : ∀ (row : Record) (v : Value), (row.insert label v).getD pkName = row.getD pkName := by
    intro row v
    rw [Record.getD_eq, Record.lookup_insert_ne row (Ne.symm hlabel), Record.getD_eq]
  have hothers : ∀ row : Record, ∀ row' ∈ vs.map fun v => row.insert label v, row'.getD pkName = row.getD pkName := by
    intro row row' hrow'
    obtain ⟨v', _, rfl⟩ := List.mem_map.mp hrow'
    exact hkey row v'
  exact foldl_addFirst_flatMap (fun row => hkey row v) hothers records []

/-- A column under the name of the key gives the first record every key there is. -/
theorem firstRows_withCells_key (cells : List Value) (row : Record) (rest : List Record) :
    firstRows pkName (withCells pkName cells (row :: rest)) =
      firstRows pkName (cells.map fun v => row.insert pkName v) := by
  have hkey : ∀ (row : Record) (v : Value), (row.insert pkName v).getD pkName = v := by
    intro row v
    rw [Record.getD_eq, Record.lookup_insert_self]
    rfl
  rw [withCells, List.flatMap_cons, firstRows_eq, List.foldl_append, ← firstRows_eq]
  refine foldl_addFirst_of_mem fun row' hrow' => ?_
  obtain ⟨other, _, hrow'⟩ := List.mem_flatMap.mp hrow'
  obtain ⟨v, hv, rfl⟩ := List.mem_map.mp hrow'
  rw [hkey, firstRows_eq, mem_keys_foldl_addFirst, List.map_map]
  exact .inr (List.mem_map.mpr ⟨v, hv, hkey row v⟩)

/-- A column under the name of the key is put into first records as into all. -/
theorem firstRows_withCells_key_restrict (hkeeps : keeps pkName) {before before' : List Record} (cells : List Value)
    (h : firstRows pkName before' = (firstRows pkName before).map (restrictEntry keeps)) :
    firstRows pkName (withCells pkName cells before') =
      (firstRows pkName (withCells pkName cells before)).map (restrictEntry keeps) := by
  have hhead : before'.head?.map (fun row => (row.getD pkName, row)) =
      (before.head?.map fun row => (row.getD pkName, row)).map (restrictEntry keeps) := by
    rw [← head?_firstRows, h, List.head?_map, head?_firstRows]
  cases before with
  | nil =>
      cases before' with
      | nil => rfl
      | cons row' rest' => cases hhead
  | cons row rest =>
      cases before' with
      | nil => cases hhead
      | cons row' rest' =>
          obtain rfl : row' = row.restrict keeps := congrArg Prod.snd (Option.some.inj hhead)
          have hput : (cells.map fun v => (row.restrict keeps).insert pkName v) =
              (cells.map fun v => row.insert pkName v).map (Record.restrict keeps) := by
            rw [List.map_map]
            refine List.map_congr_left fun v _ => ?_
            rw [Function.comp_apply, Record.restrict_insert, if_pos hkeeps]
          rw [firstRows_withCells_key, firstRows_withCells_key, hput]
          exact foldl_addFirst_map (fun row => Record.getD_restrict hkeeps row) _ []

/-- One more column is put into first records as into all. -/
theorem firstRows_withCells_restrict (hkeeps : keeps pkName) {before before' : List Record} (label : String)
    {cells : List Value} (hcells : cells ≠ [])
    (h : firstRows pkName before' = (firstRows pkName before).map (restrictEntry keeps)) :
    firstRows pkName (if keeps label then withCells label cells before' else before') =
      (firstRows pkName (withCells label cells before)).map (restrictEntry keeps) := by
  by_cases hlabel : label = pkName
  · subst hlabel
    rw [if_pos hkeeps]
    exact firstRows_withCells_key_restrict hkeeps cells h
  · obtain ⟨v, vs, rfl⟩ := List.exists_cons_of_ne_nil hcells
    rw [firstRows_withCells hlabel, List.map_map]
    split
    · rename_i hkept
      rw [firstRows_withCells hlabel, h, List.map_map]
      refine List.map_congr_left fun e _ => ?_
      show (e.1, (e.2.restrict keeps).insert label v) = (e.1, (e.2.insert label v).restrict keeps)
      rw [Record.restrict_insert, if_pos hkept]
    · rename_i hleft
      rw [h]
      refine List.map_congr_left fun e _ => ?_
      show (e.1, e.2.restrict keeps) = (e.1, (e.2.insert label v).restrict keeps)
      rw [Record.restrict_insert, if_neg hleft]

/-- Fewer columns are put into first records as all are into all. -/
theorem firstRows_addCells (hkeeps : keeps pkName) {pk : Value} {before before' own : List Record}
    (hbefore : firstRows pkName before' = (firstRows pkName before).map (restrictEntry keeps))
    (h : columns.foldlM (addCells reg st m named pk) before = .ok own) :
    ∃ own', (columns.filter fun c => keeps c.label).foldlM (addCells reg st m named pk) before' = .ok own' ∧
      firstRows pkName own' = (firstRows pkName own).map (restrictEntry keeps) := by
  induction columns generalizing before before' with
  | nil =>
      cases h
      exact ⟨before', rfl, hbefore⟩
  | cons column rest ih =>
      rw [List.foldlM_cons] at h
      obtain ⟨after, hstep, h⟩ := Outcome.bind_eq_ok.mp h
      obtain ⟨cells, hcells, hstep⟩ := Outcome.bind_eq_ok.mp hstep
      cases hstep
      have hafter := firstRows_withCells_restrict hkeeps column.label (columnCells_ne_nil hcells) hbefore
      rw [List.filter_cons]
      split
      · rename_i hkept
        rw [if_pos hkept] at hafter
        rw [List.foldlM_cons, addCells, hcells, Outcome.ok_bind]
        exact ih hafter h
      · rename_i hleft
        rw [if_neg hleft] at hafter
        exact ih hafter h

/-- A row that is fetched with fewer columns has as first records those of the row, restricted. -/
theorem firstRows_rowRecords (hkeeps : keeps pkName) {pk : Value} {own : List Record}
    (h : rowRecords reg st m named columns pk = .ok own) :
    ∃ own', rowRecords reg st m named (columns.filter fun c => keeps c.label) pk = .ok own' ∧
      firstRows pkName own' = (firstRows pkName own).map (restrictEntry keeps) := by
  rw [rowRecords_eq] at h
  simp only [rowRecords_eq]
  exact firstRows_addCells hkeeps rfl h

/-- Rows that are fetched with fewer columns have, each of them, as first records those of the row, restricted. -/
theorem firstRows_groups (hkeeps : keeps pkName) {pks : List Value} {groups : List (List Record)}
    (h : pks.mapM (rowRecords reg st m named columns) = .ok groups) :
    ∃ groups', pks.mapM (rowRecords reg st m named (columns.filter fun c => keeps c.label)) = .ok groups' ∧
      groups'.map (firstRows pkName) = groups.map fun own => (firstRows pkName own).map (restrictEntry keeps) := by
  induction pks generalizing groups with
  | nil =>
      cases h
      exact ⟨[], rfl, rfl⟩
  | cons pk pks ih =>
      rw [List.mapM_cons] at h
      obtain ⟨own, hown, h⟩ := Outcome.bind_eq_ok.mp h
      obtain ⟨groups, hrest, h⟩ := Outcome.bind_eq_ok.mp h
      cases h
      obtain ⟨own', hown', hfirst⟩ := firstRows_rowRecords hkeeps hown
      obtain ⟨groups', hrest', hfirsts⟩ := ih hrest
      refine ⟨own' :: groups', ?_, ?_⟩
      · rw [List.mapM_cons, hown', Outcome.ok_bind, hrest']
        rfl
      · rw [List.map_cons, List.map_cons, hfirst, hfirsts]

/-- What is fetched with fewer columns has as first rows those that are fetched, restricted. -/
theorem firstRows_fetch (hkeeps : keeps pkName) {qs : Queryset} {fetched : List Record}
    (h : st.fetch reg qs columns = .ok fetched) :
    ∃ fetched', st.fetch reg qs (columns.filter fun c => keeps c.label) = .ok fetched' ∧
      firstRows pkName fetched' = (firstRows pkName fetched).map (restrictEntry keeps) := by
  unfold fetch at h ⊢
  simp only at h ⊢
  split at h
  · cases h
  · rename_i hopen
    obtain ⟨pks, hpks, h⟩ := Outcome.bind_eq_ok.mp h
    obtain ⟨groups, hgroups, h⟩ := Outcome.bind_eq_ok.mp h
    cases h
    -- Fewer columns have fewer aggregates.
    have hopen' : ¬(qs.isSliced && ((columns.filter fun c => keeps c.label).map SelectColumn.expr ++
        qs.annotations.map Prod.snd ++ qs.ordering.map OrderTerm.expr).any (reg.aggregatesMany qs.model)) = true := by
      simp only [Bool.and_eq_true, List.any_append, Bool.or_eq_true, List.any_map, List.any_filter] at hopen ⊢
      rintro ⟨hsliced, (hcolumn | hannotation) | hordering⟩
      · refine hopen ⟨hsliced, .inl (.inl ?_)⟩
        obtain ⟨c, hc, hmany⟩ := List.any_eq_true.mp hcolumn
        exact List.any_eq_true.mpr ⟨c, hc, (Bool.and_eq_true_iff.mp hmany).2⟩
      · exact hopen ⟨hsliced, .inl (.inr hannotation)⟩
      · exact hopen ⟨hsliced, .inr hordering⟩
    obtain ⟨groups', hgroups', hfirsts⟩ := firstRows_groups hkeeps hgroups
    refine ⟨groups'.flatten, ?_, firstRows_flatten (fun row => Record.getD_restrict hkeeps row) hfirsts⟩
    rw [if_neg hopen', hpks, Outcome.ok_bind, hgroups']
    rfl

end Store

/-! ## Plans -/

namespace ReadPlan

variable {reg : Registry} {s : Schema} {ctx : Context} {m : Model} {sliced : Bool} {now : Instant}
  {plan plan' : ReadPlan} {f : SchemaField} {keeps : String → Bool} {output : List String}

/-- The parts of a plan under names that pass a test, for rows of the given names. -/
def restrict (keeps : String → Bool) (output : List String) (plan : ReadPlan) : ReadPlan where
  columns := plan.columns.filter fun c => keeps c.label
  isolated := plan.isolated.filter fun f => keeps f.name
  initial := plan.initial.restrict keeps
  computed := plan.computed.filter fun f => keeps f.name
  output := output

theorem addField_restrict (hkept : keeps f.name) (h : addField reg m sliced now plan f = .ok plan') :
    addField reg m sliced now (plan.restrict keeps output) f = .ok (plan'.restrict keeps output) := by
  unfold addField at h ⊢
  split at h
  · cases h
    simp [restrict, hkept]
  · obtain ⟨e, he, h⟩ := Outcome.bind_eq_ok.mp h
    cases h
    rw [he]
    simp [restrict, hkept]
  · cases h
    simp [restrict, hkept, Record.restrict_insert]
  · split at h
    · rename_i hproperty
      cases h
      rw [if_pos hproperty]
      simp [restrict, hkept, Record.restrict_insert]
    · rename_i hproperty
      cases h
      rw [if_neg hproperty]
      simp [restrict, hkept, Record.restrict_insert]

theorem restrict_of_addField (hleft : ¬keeps f.name) (h : addField reg m sliced now plan f = .ok plan') :
    plan'.restrict keeps output = plan.restrict keeps output := by
  rcases addField_cases h with ⟨e, _, _, _, rfl⟩ | ⟨_, rfl⟩ | ⟨_, v, computed, hsame, rfl⟩
  · simp [restrict, hleft]
  · simp [restrict, hleft, Record.restrict_insert]
  · have hnone : (computed.filter fun g => keeps g.name) = [] := by
      rw [List.filter_eq_nil_iff]
      intro g hg
      rw [hsame g hg]
      exact hleft
    simp [restrict, hleft, Record.restrict_insert, hnone]

/-- Adding fewer fields makes the plan of all, restricted to their names. -/
theorem addFields_restrict {fields : List SchemaField}
    (h : fields.foldlM (addField reg m sliced now) plan = .ok plan') :
    (fields.filter fun f => keeps f.name).foldlM (addField reg m sliced now) (plan.restrict keeps output) =
      .ok (plan'.restrict keeps output) := by
  induction fields generalizing plan with
  | nil =>
      cases h
      rfl
  | cons f rest ih =>
      rw [List.foldlM_cons] at h
      obtain ⟨middle, hmiddle, h⟩ := Outcome.bind_eq_ok.mp h
      rw [List.filter_cons]
      split
      · rename_i hkept
        rw [List.foldlM_cons, addField_restrict hkept hmiddle, Outcome.ok_bind]
        exact ih h
      · rename_i hleft
        rw [← restrict_of_addField hleft hmiddle]
        exact ih h

/-! ## Rows -/

/-- A restricted row is prefilled with the values that are kept. -/
theorem prefill_restrict (row : Record) :
    (plan.restrict keeps output).prefill (row.restrict keeps) = (plan.prefill row).restrict keeps :=
  (Record.restrict_extend row plan.initial).symm

/-- Names of which none stands twice are taken out with their values. -/
theorem takeOut_eq {names : List String} (hnames : names.Nodup) (row : Record) {out : Record}
    (hout : ∀ name ∈ names, name ∉ out.map Prod.fst) :
    takeOut names row out = out ++ names.map fun name => (name, row.getD name) := by
  induction names generalizing row out with
  | nil => exact (List.append_nil out).symm
  | cons n rest ih =>
      obtain ⟨hn, hrest⟩ := List.nodup_cons.mp hnames
      have hput : out.insert n (row.getD n) = out ++ [(n, row.getD n)] :=
        insertEntry_of_not_mem _ (hout n List.mem_cons_self)
      have herase : ∀ name ∈ rest, (row.erase n).getD name = row.getD name := by
        intro name hname
        have hne : name ≠ n := fun hsame => hn (hsame ▸ hname)
        rw [Record.getD_eq, Record.lookup_erase_ne row hne, Record.getD_eq]
      rw [takeOut, hput, ih hrest, List.append_assoc]
      · refine congrArg (out ++ _ :: ·) (List.map_congr_left fun name hname => ?_)
        rw [herase name hname]
      · intro name hname
        rw [List.map_append, List.mem_append, not_or]
        refine ⟨hout name (List.mem_cons_of_mem n hname), fun hmem => ?_⟩
        obtain rfl : name = n := List.mem_singleton.mp hmem
        exact hn hname

/-- A finished row has the values of its names. -/
theorem finish_eq (hnames : plan.output.Nodup) (row : Record) :
    plan.finish row = plan.output.map fun name => (name, (plan.compute row).getD name) :=
  takeOut_eq hnames _ fun _ _ => List.not_mem_nil

/-- The properties that are kept have all they read. -/
def ComputesFrom (keeps : String → Bool) (plan : ReadPlan) : Prop :=
  ∀ f ∈ plan.computed, keeps f.name → ∀ p, f.property = some p →
    ∀ row : Record, p.compute (row.restrict keeps) = p.compute row

/-- From a restricted row is computed what is computed from the row, restricted. -/
theorem compute_restrict (hreads : plan.ComputesFrom keeps) (row : Record) :
    (plan.restrict keeps output).compute (row.restrict keeps) = (plan.compute row).restrict keeps := by
  have hcomputed : (plan.restrict keeps output).computed = plan.computed.filter fun f => keeps f.name := rfl
  unfold ComputesFrom at hreads
  rw [compute, compute, hcomputed]
  generalize plan.computed = fields at hreads
  induction fields generalizing row with
  | nil => rfl
  | cons f rest ih =>
      have hrest := fun row => ih row fun g hg => hreads g (List.mem_cons_of_mem f hg)
      rw [List.filter_cons, List.foldl_cons, ← hrest]
      split
      · rename_i hkept
        rw [List.foldl_cons]
        cases hproperty : f.property with
        | none => rfl
        | some p =>
            dsimp only
            rw [Record.restrict_insert, if_pos hkept, hreads f List.mem_cons_self hkept p hproperty]
      · rename_i hleft
        cases hproperty : f.property with
        | none => rfl
        | some p => rw [Record.restrict_insert, if_neg hleft]

/-- A restricted row is finished to those values of the finished row that are shown, if these are kept. -/
theorem finish_restrict {shows : String → Bool} (hnames : plan.output.Nodup)
    (hshown : ∀ name ∈ plan.output, shows name → keeps name)
    (hreads : plan.ComputesFrom keeps) (row : Record) :
    (plan.restrict keeps (plan.output.filter shows)).finish (row.restrict keeps) =
      (plan.finish row).restrict shows := by
  have hfewer : (plan.restrict keeps (plan.output.filter shows)).output = plan.output.filter shows := rfl
  have hkept : (plan.finish row).restrict shows =
      (plan.output.filter shows).map fun name => (name, (plan.compute row).getD name) := by
    rw [finish_eq hnames]
    exact List.filter_map
  rw [finish_eq (hnames.filter _), compute_restrict hreads, hfewer, hkept]
  refine List.map_congr_left fun name hname => ?_
  obtain ⟨hmem, hshow⟩ := List.mem_filter.mp hname
  rw [Record.getD_restrict (hshown name hmem hshow)]

end ReadPlan

end RecordMapper
