import RecordMapper.Proofs.Store.Annotations
import RecordMapper.Proofs.Store.Cascades
import RecordMapper.Proofs.Store.Selection
import RecordMapper.Read.Links

/-!
# Grouped — one query for many owners

The links of many owners are found by one query for rows whose path leads
to any of them. The records are then told apart by their owners
(`Links.ofRows`). For every owner this gives what a query of its own
gives: the rows whose path leads to that owner, in the same order, with
the first value of each that is not null.
-/

namespace RecordMapper

namespace Store

variable {reg : Registry} {st : Store} {m : Model} {named : Named} {qs : Queryset} {link : String}
  {o pk : Value} {owners pks : List Value} {l l' : Lookup}

/-! ## Rows of one owner among those of all -/

/-- The order of a queryset does not contradict itself on the rows that it selects. -/
def Ranked (reg : Registry) (st : Store) (qs : Queryset) : Prop :=
  ∀ pks values, select reg st qs = .ok pks →
    let terms := Expression.sortTerms reg st qs.model (Expression.annotationsOf reg st qs) qs.ordering
    ranksOf terms pks = .ok values → SortTerm.Ranks terms values

theorem ranked_of_unordered (h : qs.ordering = []) : Ranked reg st qs := by
  intro _ values _ terms _ a _ b _ c _ _ _
  have hterms : terms = [] := by
    simp only [terms, h]
    rfl
  rw [hterms, SortTerm.orderAll]
  · exact Ordering.noConfusion
  · intro _ _ _ _ _ _ hcons
    cases hcons

/-- Whether a path leads from a row to a value. -/
def leadsTo (reg : Registry) (st : Store) (m : Model) (named : Named) (link : String) (o pk : Value) : Bool :=
  ((columnValues reg st m named pk link).toOption.getD []).contains o

/-- A path that leads to no floats leads to a plain value if that is among what it leads to. -/
theorem holds_exact_test {values : String → Outcome (List Value)} {vs : List Value} (hplain : o.isPlain)
    (hvs : values link = .ok vs) (hfloat : ∀ x, Value.float x ∉ vs) :
    (Condition.test link (.exact o)).holds values = .ok (vs.contains o) := by
  have hexact : ∀ v ∈ vs, (Lookup.exact o).holds v = true → v = o := by
    intro v hv h
    rw [holds_exact hplain] at h
    exact (Value.numEq_iff_of_ne_float (fun x hx => hfloat x (hx ▸ hv)) hplain).mp h
  rw [Condition.holds, hvs, Outcome.ok_bind]
  cases vs with
  | nil =>
      have hnull : (Lookup.exact o).holds .null = false := by
        rw [holds_exact hplain]
        exact Bool.eq_false_iff.mpr fun h =>
          Value.ne_null_of_isPlain hplain ((Value.numEq_iff_of_isPlain (.inl rfl) hplain).mp h).symm
      exact congrArg Except.ok hnull
  | cons v vs =>
      refine congrArg Except.ok ?_
      simp only [List.isEmpty_cons, Bool.false_eq_true, if_false]
      rw [Bool.eq_iff_iff, List.any_eq_true, List.contains_iff_mem]
      constructor
      · rintro ⟨w, hw, h⟩
        exact hexact w hw h ▸ hw
      · exact fun ho => ⟨o, ho, holds_exact_of_isPlain hplain⟩

/-- Whether a row passes a test of what a path leads to. -/
def meets (reg : Registry) (st : Store) (m : Model) (named : Named) (link : String) (l : Lookup) (pk : Value) : Bool :=
  ((Condition.test link l).holds (columnValues reg st m named pk)).toOption.getD false

/-- A narrower test is answered where a wider one is, and passes only where that does. -/
theorem holds_narrower {values : String → Outcome (List Value)} (himp : ∀ v, l'.holds v → l.holds v) {b : Bool}
    (h : (Condition.test link l).holds values = .ok b) :
    ∃ b', (Condition.test link l').holds values = .ok b' ∧ (b && b') = b' := by
  rw [Condition.holds] at h ⊢
  obtain ⟨vs, hvs, h⟩ := Outcome.bind_eq_ok.mp h
  cases h
  refine ⟨_, by rw [hvs]; rfl, ?_⟩
  rw [Bool.and_eq_right_iff_imp]
  split
  · exact himp .null
  · rw [List.any_eq_true, List.any_eq_true]
    rintro ⟨v, hv, hl⟩
    exact ⟨v, hv, himp v hl⟩

/-- Of the rows that pass one more condition those pass a narrower one that pass its test. -/
theorem passes_narrower (himp : ∀ v, l'.holds v → l.holds v) {b : Bool}
    (h : passes reg st m named (qs.filter (.test link l)).condition pk = .ok b) :
    passes reg st m named (qs.filter (.test link l')).condition pk = .ok (b && meets reg st m named link l' pk) := by
  rw [passes_filter] at h ⊢
  obtain ⟨earlier, hearlier, h⟩ := Outcome.bind_eq_ok.mp h
  rw [hearlier, Outcome.ok_bind]
  cases earlier with
  | false =>
      cases h
      rfl
  | true =>
      rw [if_pos rfl] at h ⊢
      obtain ⟨b', hb', hless⟩ := holds_narrower himp h
      have hmeets : meets reg st m named link l' pk = b' := by
        rw [meets, hb']
        rfl
      rw [hb', hmeets, hless]

/-- Without a window, the keys that pass one more condition are sorted and that is all. -/
theorem select_filter (hsliced : qs.isSliced = false) (q : Condition) :
    select reg st (qs.filter q) = if qs.none then .ok [] else
      (st.keys qs.model).filterM (passes reg st qs.model (Expression.annotationsOf reg st qs) (qs.filter q).condition)
        >>= sortKeys (Expression.sortTerms reg st qs.model (Expression.annotationsOf reg st qs) qs.ordering) := by
  have hselectKeys : ∀ (m : Model) (named : Named) (condition : Option Condition) (terms : List SortTerm),
      selectKeys reg st m named condition terms 0 none none =
        ((st.keys m).filterM (passes reg st m named condition) >>= sortKeys terms) := by
    intro m named condition terms
    have hwindow : ∀ pks : Outcome (List Value), (pks >>= fun pks => pure (window 0 none pks)) = pks := by
      rintro (e | pks) <;> rfl
    rw [selectKeys_unlinked]
    exact congrArg _ (funext fun selected => hwindow _)
  obtain ⟨m, condition, annotations, ordering, offset, limit, nothing, database⟩ := qs
  obtain ⟨hoffset, hlimit⟩ : offset = 0 ∧ limit = none := by simpa [Queryset.isSliced] using hsliced
  subst hoffset hlimit
  cases nothing
  · exact hselectKeys ..
  · rfl

/-- Of the rows that pass a test those are selected by a narrower one that pass it, in the same order. -/
theorem select_narrower (hsliced : qs.isSliced = false) (himp : ∀ v, l'.holds v → l.holds v)
    (hranked : Ranked reg st (qs.filter (.test link l)))
    (h : select reg st (qs.filter (.test link l)) = .ok pks) :
    select reg st (qs.filter (.test link l')) =
      .ok (pks.filter (meets reg st qs.model (Expression.annotationsOf reg st qs) link l')) := by
  have hselect := h
  rw [select_filter hsliced] at h ⊢
  split at h
  · rename_i hnothing
    rw [if_pos hnothing]
    cases h
    rfl
  · rename_i hsome
    rw [if_neg hsome]
    obtain ⟨selected, hselected, hsorted⟩ := Outcome.bind_eq_ok.mp h
    obtain ⟨htested, hkept⟩ := Outcome.filterM_eq_ok hselected
    have hpart : (st.keys qs.model).filterM (passes reg st qs.model (Expression.annotationsOf reg st qs)
        (qs.filter (.test link l')).condition) =
        .ok (selected.filter (meets reg st qs.model (Expression.annotationsOf reg st qs) link l')) := by
      rw [hkept, List.filter_filter]
      refine Outcome.filterM_ok fun pk hpk => ?_
      obtain ⟨b, hb⟩ := htested pk hpk
      rw [passes_narrower himp hb, hb, Bool.and_comm]
      cases b <;> rfl
    rw [hpart, Outcome.ok_bind]
    refine sortKeys_filter hsorted (fun values hvalues => ?_) _
    -- The keys that are selected are the same before and after the sort.
    obtain ⟨values', hvalues', hperm⟩ := Outcome.mapM_perm (sortKeys_perm hsorted).symm hvalues
    have hranks := hranked pks values' hselect
    rw [show Expression.annotationsOf reg st (qs.filter (.test link l)) =
      Expression.annotationsOf reg st qs by cases qs; rfl] at hranks
    exact fun a ha b hb c hc =>
      hranks hvalues' a (hperm.mem_iff.mp ha) b (hperm.mem_iff.mp hb) c (hperm.mem_iff.mp hc)

/-- What is one of the owners is listed among them. -/
theorem holds_oneOf_of_exact (ho : o ∈ owners) (hplain : o.isPlain) {v : Value} (h : (Lookup.exact o).holds v) :
    (Lookup.oneOf owners).holds v := by
  rw [holds_exact hplain] at h
  refine holds_oneOf_iff.mpr ⟨Bool.eq_false_iff.mpr fun hnull => ?_, o, ho, h⟩
  rw [Value.isNull_iff.mp hnull] at h
  exact Value.ne_null_of_isPlain hplain ((Value.numEq_iff_of_isPlain (.inl rfl) hplain).mp h).symm

/-- The rows of one owner are those rows of all owners whose path leads to that one, in the same order. -/
theorem select_exact (hsliced : qs.isSliced = false) (ho : o ∈ owners) (hplain : o.isPlain)
    (hfloat : ∀ pk ∈ st.keys qs.model, ∀ vs,
      columnValues reg st qs.model (Expression.annotationsOf reg st qs) pk link = .ok vs → ∀ x, Value.float x ∉ vs)
    (hranked : Ranked reg st (qs.filter (.test link (.oneOf owners))))
    (h : select reg st (qs.filter (.test link (.oneOf owners))) = .ok pks) :
    select reg st (qs.filter (.test link (.exact o))) =
      .ok (pks.filter (leadsTo reg st qs.model (Expression.annotationsOf reg st qs) link o)) := by
  rw [select_narrower hsliced (fun _ => holds_oneOf_of_exact ho hplain) hranked h]
  refine congrArg Except.ok (List.filter_congr fun pk hpk => ?_)
  have hkey : pk ∈ st.keys qs.model := (select_subperm h).subset hpk
  rw [meets, leadsTo]
  cases hvs : columnValues reg st qs.model (Expression.annotationsOf reg st qs) pk link with
  | error e =>
      rw [Condition.holds, hvs]
      rfl
  | ok vs =>
      rw [holds_exact_test hplain hvs (hfloat pk hkey vs hvs)]
      rfl

end Store

namespace Links

variable {owners : List Value} {o pk : Value} {acc : Links × List (Value × Value)}

/-! ## Records told apart by owner -/

/-- Puts what one record says behind what the records before it said. -/
def addRow (owners : List Value) (acc : Links × List (Value × Value)) (row : Record) :
    Links × List (Value × Value) :=
  let owner := row.getD ownerLabel
  let key := row.getD keyLabel
  let value := row.getD valueLabel
  if value.isNull || !owners.contains owner || acc.2.contains (owner, key) then acc
  else (insertEntry acc.1 owner ((acc.1.lookup owner).getD [] ++ [value]), (owner, key) :: acc.2)

theorem ofRows_eq (owners : List Value) (rows : List Record) :
    ofRows owners rows = (rows.foldl (addRow owners) ([], [])).1 := rfl

/-- What a list of values is for an owner: nothing if it is empty. -/
def unlessEmpty (values : List Value) : Option (List Value) := if values.isEmpty then none else some values

@[simp] theorem getD_unlessEmpty (values : List Value) : (unlessEmpty values).getD [] = values := by
  cases values <;> rfl

theorem unlessEmpty_append (values : List Value) (v : Value) :
    unlessEmpty (values ++ [v]) = some (values ++ [v]) := by
  cases values <;> rfl

/-- Whether a record says something of an owner. -/
def tells (o : Value) (row : Record) : Bool := row.getD ownerLabel == o && !(row.getD valueLabel).isNull

theorem tells_iff {row : Record} :
    tells o row ↔ row.getD ownerLabel = o ∧ (row.getD valueLabel).isNull = false := by
  rw [tells, Bool.and_eq_true, beq_iff_eq, Bool.not_eq_true']

/-- A record counts if its owner is known, it has a value and its row was not counted for the owner. -/
theorem addRow_eq (acc : Links × List (Value × Value)) (row : Record) :
    addRow owners acc row =
      if row.getD ownerLabel ∈ owners ∧ (row.getD valueLabel).isNull = false ∧
        (row.getD ownerLabel, row.getD keyLabel) ∉ acc.2 then
        (insertEntry acc.1 (row.getD ownerLabel)
          ((acc.1.lookup (row.getD ownerLabel)).getD [] ++ [row.getD valueLabel]),
          (row.getD ownerLabel, row.getD keyLabel) :: acc.2)
      else acc := by
  rw [addRow, ← ite_not]
  refine if_congr ?_ rfl rfl
  simp only [Bool.or_eq_true, Bool.not_eq_true', List.contains_eq_mem, decide_eq_true_eq,
    decide_eq_false_iff_not, not_or, not_not, Bool.not_eq_true]
  constructor
  · rintro ⟨⟨hvalue, howner⟩, hnew⟩
    exact ⟨howner, hvalue, hnew⟩
  · rintro ⟨howner, hvalue, hnew⟩
    exact ⟨⟨hvalue, howner⟩, hnew⟩

/-- A record adds its value for its owner, unless the row was counted before. -/
theorem lookup_addRow (ho : o ∈ owners) (acc : Links × List (Value × Value)) (row : Record) :
    (addRow owners acc row).1.lookup o =
      if tells o row ∧ (o, row.getD keyLabel) ∉ acc.2 then
        some ((acc.1.lookup o).getD [] ++ [row.getD valueLabel]) else acc.1.lookup o := by
  rw [addRow_eq]
  simp only [tells_iff]
  by_cases howner : row.getD ownerLabel = o
  · subst howner
    simp only [ho, true_and]
    split
    · exact lookup_insertEntry_self ..
    · rfl
  · simp only [howner, false_and, if_false]
    split
    · exact lookup_insertEntry_ne _ (Ne.symm howner) _
    · rfl

/-- A row is counted for the owner that a record of it tells of. -/
theorem mem_seen_addRow (ho : o ∈ owners) {row : Record} {key : Value} :
    (o, key) ∈ (addRow owners acc row).2 ↔ (o, key) ∈ acc.2 ∨ tells o row ∧ key = row.getD keyLabel := by
  rw [addRow_eq, tells_iff]
  by_cases howner : row.getD ownerLabel = o
  · subst howner
    simp only [ho, true_and]
    split
    · rename_i hcounts
      rw [List.mem_cons, Prod.mk.injEq]
      simp [hcounts.1, or_comm]
    · rename_i hcounts
      refine ⟨.inl, fun h => h.elim id ?_⟩
      rintro ⟨hvalue, rfl⟩
      exact not_not.mp fun hnew => hcounts ⟨hvalue, hnew⟩
  · have hne : ∀ k, (o, key) ≠ (row.getD ownerLabel, k) := fun k he => howner (Prod.mk.inj he).1.symm
    simp only [howner, false_and, or_false]
    split
    · rw [List.mem_cons, or_iff_right (hne _)]
    · rfl

theorem lookup_addRow_of_not_mem (ho : o ∉ owners) (row : Record) :
    (addRow owners acc row).1.lookup o = acc.1.lookup o := by
  rw [addRow_eq]
  split
  · rename_i hcounts
    have hne : o ≠ row.getD ownerLabel := fun he => ho (he ▸ hcounts.1)
    exact lookup_insertEntry_ne _ hne _
  · rfl

/-! ## The records of one row -/

section Row

variable {rows : List Record} (hkeys : ∀ row ∈ rows, row.getD keyLabel = pk)

include hkeys

/-- A row that was counted is not counted again. -/
theorem lookup_foldl_seen (ho : o ∈ owners) (hseen : (o, pk) ∈ acc.2) :
    (rows.foldl (addRow owners) acc).1.lookup o = acc.1.lookup o := by
  induction rows generalizing acc with
  | nil => rfl
  | cons row rest ih =>
      have hkey := hkeys row List.mem_cons_self
      rw [List.foldl_cons, ih (fun r hr => hkeys r (List.mem_cons_of_mem _ hr))
        ((mem_seen_addRow ho).mpr (.inl hseen)), lookup_addRow ho, if_neg fun h => h.2 (hkey ▸ hseen)]

/-- Of the records of a row the first that tells of an owner is counted. -/
theorem lookup_foldl_row (ho : o ∈ owners) (hnew : (o, pk) ∉ acc.2) :
    (rows.foldl (addRow owners) acc).1.lookup o =
      match rows.find? (tells o) with
      | some row => some ((acc.1.lookup o).getD [] ++ [row.getD valueLabel])
      | none => acc.1.lookup o := by
  induction rows generalizing acc with
  | nil => rfl
  | cons row rest ih =>
      have hkey := hkeys row List.mem_cons_self
      have hrest := fun r hr => hkeys r (List.mem_cons_of_mem _ hr)
      rw [List.foldl_cons, List.find?_cons]
      cases htells : tells o row with
      | true =>
          rw [lookup_foldl_seen hrest ho ((mem_seen_addRow ho).mpr (.inr ⟨htells, hkey.symm⟩)), lookup_addRow ho,
            if_pos ⟨htells, hkey ▸ hnew⟩]
      | false =>
          have hunseen : (o, pk) ∉ (addRow owners acc row).2 := fun h =>
            ((mem_seen_addRow ho).mp h).elim hnew fun h => Bool.false_ne_true (htells ▸ h.1)
          rw [ih hrest hunseen, lookup_addRow ho, if_neg fun h => Bool.false_ne_true (htells ▸ h.1)]

/-- Only the row itself is counted with its records. -/
theorem mem_seen_foldl (ho : o ∈ owners) {key : Value} (h : (o, key) ∈ (rows.foldl (addRow owners) acc).2) :
    (o, key) ∈ acc.2 ∨ key = pk := by
  induction rows generalizing acc with
  | nil => exact .inl h
  | cons row rest ih =>
      rcases ih (fun r hr => hkeys r (List.mem_cons_of_mem _ hr)) h with h | h
      · exact ((mem_seen_addRow ho).mp h).imp_right fun h => h.2.trans (hkeys row List.mem_cons_self)
      · exact .inr h

end Row

/-- The records of a row: one for each of its owners and each of its values. -/
def recordsOf (os : List Value) (pk : Value) (vs : List Value) : List Record :=
  os.flatMap fun o => vs.map fun v => [(ownerLabel, o), (keyLabel, pk), (valueLabel, v)]

theorem getD_keyLabel_of_mem {os vs : List Value} {row : Record} (h : row ∈ recordsOf os pk vs) :
    row.getD keyLabel = pk := by
  obtain ⟨_, _, h⟩ := List.mem_flatMap.mp h
  obtain ⟨_, _, rfl⟩ := List.mem_map.mp h
  rfl

/-- The record that tells of an owner has the first value that is not null. -/
theorem find?_recordsOf (o : Value) (os : List Value) (pk : Value) (vs : List Value) :
    (recordsOf os pk vs).find? (tells o) =
      if o ∈ os then (vs.find? fun v => !v.isNull).map fun v => [(ownerLabel, o), (keyLabel, pk), (valueLabel, v)]
      else none := by
  induction os with
  | nil => rfl
  | cons a rest ih =>
      have hfirst : (vs.map fun v => [(ownerLabel, a), (keyLabel, pk), (valueLabel, v)]).find? (tells o) =
          (vs.find? fun v => a == o && !v.isNull).map fun v => [(ownerLabel, a), (keyLabel, pk), (valueLabel, v)] :=
        List.find?_map ..
      rw [recordsOf, List.flatMap_cons, List.find?_append, hfirst]
      by_cases ha : a = o
      · subst ha
        simp only [beq_self_eq_true, Bool.true_and, List.mem_cons_self, if_true]
        cases hvalue : vs.find? fun v => !v.isNull with
        | some v => rfl
        | none =>
            rw [hvalue, Option.map_none, ite_self] at ih
            exact ih
      · have hnone : (vs.find? fun v => a == o && !v.isNull) = none := by simp [ha]
        rw [hnone, Option.map_none, Option.none_or]
        refine ih.trans (if_congr ?_ rfl rfl)
        rw [List.mem_cons, or_iff_right (Ne.symm ha)]

/-- The records of several rows give an owner the first value that is not null of each of its rows. -/
theorem lookup_foldl_rows (ho : o ∈ owners) (os vs : Value → List Value) {pks before : List Value} (hnd : pks.Nodup)
    (hbefore : acc.1.lookup o = unlessEmpty before) (hnew : ∀ pk ∈ pks, (o, pk) ∉ acc.2) :
    ((pks.flatMap fun pk => recordsOf (os pk) pk (vs pk)).foldl (addRow owners) acc).1.lookup o =
      unlessEmpty (before ++
        (pks.filter fun pk => (os pk).contains o).filterMap fun pk => (vs pk).find? fun v => !v.isNull) := by
  induction pks generalizing acc before with
  | nil => simpa using hbefore
  | cons pk rest ih =>
      obtain ⟨hpk, hrest⟩ := List.nodup_cons.mp hnd
      have hkeys : ∀ row ∈ recordsOf (os pk) pk (vs pk), row.getD keyLabel = pk := fun _ => getD_keyLabel_of_mem
      have hone := lookup_foldl_row hkeys ho (hnew pk List.mem_cons_self)
      rw [find?_recordsOf, hbefore, getD_unlessEmpty] at hone
      have hunseen : ∀ k ∈ rest, (o, k) ∉ ((recordsOf (os pk) pk (vs pk)).foldl (addRow owners) acc).2 := by
        intro k hk hseen
        rcases mem_seen_foldl hkeys ho hseen with hseen | rfl
        · exact hnew k (List.mem_cons_of_mem pk hk) hseen
        · exact hpk hk
      rw [List.flatMap_cons, List.foldl_append, List.filter_cons, List.contains_eq_mem]
      by_cases hmem : o ∈ os pk
      · rw [if_pos hmem] at hone
        rw [decide_eq_true hmem, if_pos rfl, List.filterMap_cons]
        cases hvalue : (vs pk).find? fun v => !v.isNull with
        | none =>
            rw [hvalue] at hone
            exact ih hrest hone hunseen
        | some v =>
            rw [hvalue] at hone
            rw [ih hrest (hone.trans (unlessEmpty_append before v).symm) hunseen,
              List.append_assoc]
            rfl
      · rw [if_neg hmem] at hone
        rw [decide_eq_false hmem, if_neg Bool.false_ne_true]
        exact ih hrest hone hunseen

theorem lookup_ofRows_of_not_mem (ho : o ∉ owners) (rows : List Record) : (ofRows owners rows).lookup o = none := by
  rw [ofRows_eq]
  refine List.foldlRecOn (motive := fun acc : Links × List (Value × Value) => acc.1.lookup o = none) rows _ rfl
    fun acc hacc row _ => ?_
  rw [lookup_addRow_of_not_mem ho, hacc]

theorem nodup_keys_ofRows (owners : List Value) (rows : List Record) :
    ((ofRows owners rows).map Prod.fst).Nodup := by
  rw [ofRows_eq]
  refine List.foldlRecOn (motive := fun acc : Links × List (Value × Value) => (acc.1.map Prod.fst).Nodup) rows _
    List.nodup_nil fun acc hacc row _ => ?_
  rw [addRow_eq]
  split
  · exact nodup_keys_insertEntry _ _ hacc
  · exact hacc

/-- Links that are put into others replace those of their owners. -/
theorem lookup_extend (links : Links) {more : Links} (hnd : (more.map Prod.fst).Nodup) (o : Value) :
    (links.extend more).lookup o = (more.lookup o).or (links.lookup o) := by
  rw [extend]
  induction more generalizing links with
  | nil => rfl
  | cons e rest ih =>
      obtain ⟨owner, values⟩ := e
      obtain ⟨hnew, hrest⟩ := List.nodup_cons.mp hnd
      rw [List.foldl_cons, ih _ hrest, List.lookup_cons]
      by_cases howner : o = owner
      · subst howner
        rw [lookup_eq_none_iff_not_mem_keys.mpr hnew, lookup_insertEntry_self, beq_self_eq_true]
        rfl
      · rw [lookup_insertEntry_ne _ howner, beq_eq_false_iff_ne.mpr howner]

end Links

/-! ## One query for all owners -/

namespace Store

variable {reg : Registry} {st : Store} {m : Model} {named : Named} {qs : Queryset} {link value : String}
  {o pk : Value} {owners pks : List Value}

/-- The values that a record is made with: null where there are none. -/
def orNull (vs : List Value) : List Value := if vs.isEmpty then [.null] else vs

theorem mem_orNull {vs : List Value} (ho : o.isPlain) : o ∈ orNull vs ↔ o ∈ vs := by
  cases vs with
  | nil => simp [orNull, Value.ne_null_of_isPlain ho]
  | cons v vs => rfl

theorem find?_orNull (vs : List Value) : ((orNull vs).find? fun v => !v.isNull) = vs.find? fun v => !v.isNull := by
  cases vs <;> rfl

/-- The records that a joined query makes of a row. -/
theorem rowRecords_joined (hkey : KeyIsColumn reg m) (hnamed : named m.pkName = none) {rows : List Record}
    (h : rowRecords reg st m named [⟨Links.ownerLabel, .column link⟩, ⟨Links.keyLabel, .column m.pkName⟩,
      ⟨Links.valueLabel, .column value⟩] pk = .ok rows) :
    ∃ ls vs, columnValues reg st m named pk link = .ok ls ∧ columnValues reg st m named pk value = .ok vs ∧
      rows = Links.recordsOf (orNull ls) pk (orNull vs) := by
  obtain ⟨p, hp, hdirect, hname, hconcrete⟩ := hkey
  have hcell : columnCells reg st m named pk (.column m.pkName) = .ok [pk] :=
    columnCells_key hnamed hp hdirect hname hconcrete
  have hcolumn : ∀ path, columnCells reg st m named pk (.column path) =
      (columnValues reg st m named pk path >>= fun vs => .ok (orNull vs)) := fun _ => rfl
  simp only [rowRecords, List.foldlM_cons, List.foldlM_nil, hcell, hcolumn, Outcome.ok_bind] at h
  obtain ⟨_, howned, h⟩ := Outcome.bind_eq_ok.mp h
  obtain ⟨_, hl, howned⟩ := Outcome.bind_eq_ok.mp howned
  obtain ⟨ls, hls, hl⟩ := Outcome.bind_eq_ok.mp hl
  cases hl
  cases howned
  obtain ⟨_, hkeyed, h⟩ := Outcome.bind_eq_ok.mp h
  cases hkeyed
  obtain ⟨_, hvalued, h⟩ := Outcome.bind_eq_ok.mp h
  obtain ⟨_, hv, hvalued⟩ := Outcome.bind_eq_ok.mp hvalued
  obtain ⟨vs, hvs, hv⟩ := Outcome.bind_eq_ok.mp hv
  cases hv
  cases hvalued
  cases h
  refine ⟨ls, vs, hls, hvs, ?_⟩
  rw [Links.recordsOf]
  simp only [List.flatMap_cons, List.flatMap_nil, List.append_nil, List.map_cons, List.map_nil, List.flatMap_map,
    List.flatMap_assoc]
  rfl

/-- The rows of a joined query, and the records that are made of them. -/
theorem fetch_joined {records : List Record}
    (h : st.fetch reg qs [⟨Links.ownerLabel, .column link⟩, ⟨Links.keyLabel, .column qs.model.pkName⟩,
      ⟨Links.valueLabel, .column value⟩] = .ok records)
    (hkey : KeyIsColumn reg qs.model) (hannotated : qs.model.pkName ∉ qs.annotations.map Prod.fst) :
    ∃ pks, ∃ ls vs : Value → List Value, select reg st qs = .ok pks ∧
      (∀ pk ∈ pks, columnValues reg st qs.model (Expression.annotationsOf reg st qs) pk link = .ok (ls pk) ∧
        columnValues reg st qs.model (Expression.annotationsOf reg st qs) pk value = .ok (vs pk)) ∧
      records = pks.flatMap fun pk => Links.recordsOf (orNull (ls pk)) pk (orNull (vs pk)) := by
  have hnamed : Expression.annotationsOf reg st qs qs.model.pkName = none := Expression.annotationsOf_eq_none hannotated
  obtain ⟨-, pks, own, hpks, hown, rfl⟩ := fetch_eq_ok_iff.mp h
  let found (path : String) (pk : Value) : List Value :=
    (columnValues reg st qs.model (Expression.annotationsOf reg st qs) pk path).toOption.getD []
  have hrow : ∀ pk ∈ pks,
      (columnValues reg st qs.model (Expression.annotationsOf reg st qs) pk link = .ok (found link pk) ∧
        columnValues reg st qs.model (Expression.annotationsOf reg st qs) pk value = .ok (found value pk)) ∧
      own pk = Links.recordsOf (orNull (found link pk)) pk (orNull (found value pk)) := by
    intro pk hpk
    obtain ⟨ls, vs, hls, hvs, hrecords⟩ := rowRecords_joined hkey hnamed (hown pk hpk)
    simp only [found, hls, hvs]
    exact ⟨⟨rfl, rfl⟩, hrecords⟩
  exact ⟨pks, found link, found value, hpks, fun pk hpk => (hrow pk hpk).1,
    List.flatMap_congr fun pk hpk => (hrow pk hpk).2⟩

/-- What a joined query over all owners finds for one of them is what a query for that one finds: the
first value that is not null of each of its rows, in the order of the rows. -/
theorem lookup_links_joined (hsliced : qs.isSliced = false) (hkey : KeyIsColumn reg qs.model)
    (hannotated : qs.model.pkName ∉ qs.annotations.map Prod.fst) (hnodup : (st.keys qs.model).Nodup)
    (hfloat : ∀ pk ∈ st.keys qs.model, ∀ vs,
      columnValues reg st qs.model (Expression.annotationsOf reg st qs) pk link = .ok vs → ∀ x, Value.float x ∉ vs)
    (hranked : Ranked reg st (qs.filter (.test link (.oneOf owners)))) {query : Queryset} {columns : List SelectColumn}
    (hquery : (LinkStep.joined owners (qs.filter (.test link (.oneOf owners))) link value).query? =
      some (query, columns))
    {records : List Record} (h : st.fetch reg query columns = .ok records) (ho : o ∈ owners) (hplain : o.isPlain) :
    ∃ rows values, select reg st (qs.filter (.test link (.exact o))) = .ok rows ∧
      (rows.mapM fun pk => columnValues reg st qs.model (Expression.annotationsOf reg st qs) pk value) = .ok values ∧
      (Links.ofRows owners records).lookup o =
        Links.unlessEmpty (values.filterMap fun vs => vs.find? fun v => !v.isNull) := by
  cases hquery
  have hannotations : ∀ q, Expression.annotationsOf reg st (qs.filter q) = Expression.annotationsOf reg st qs :=
    fun _ => by cases qs; rfl
  have hmodel : ∀ q, (qs.filter q).model = qs.model := fun _ => rfl
  obtain ⟨pks, ls, vs, hpks, hread, rfl⟩ := fetch_joined h hkey hannotated
  rw [hannotations, hmodel] at hread
  have hnd : pks.Nodup := by
    obtain ⟨l, hperm, hsub⟩ := select_subperm hpks
    exact (hperm.nodup_iff).mp (hnodup.sublist hsub)
  refine ⟨_, _, select_exact hsliced ho hplain hfloat hranked hpks,
    Outcome.mapM_ok (g := vs) fun pk hpk => (hread pk (List.mem_filter.mp hpk).1).2, ?_⟩
  have hempty : (([], []) : Links × List (Value × Value)).1.lookup o = Links.unlessEmpty [] := rfl
  rw [Links.ofRows_eq]
  refine (Links.lookup_foldl_rows ho _ _ hnd hempty fun _ _ => List.not_mem_nil).trans ?_
  have hfilter : (pks.filter fun pk => (orNull (ls pk)).contains o) =
      pks.filter (leadsTo reg st qs.model (Expression.annotationsOf reg st qs) link o) := by
    refine List.filter_congr fun pk hpk => ?_
    rw [leadsTo, (hread pk hpk).1, Bool.eq_iff_iff, List.contains_iff_mem, List.contains_iff_mem]
    exact mem_orNull hplain
  rw [List.nil_append, List.filterMap_map, hfilter]
  exact congrArg Links.unlessEmpty (List.filterMap_congr fun pk _ => find?_orNull _)

end Store

end RecordMapper
