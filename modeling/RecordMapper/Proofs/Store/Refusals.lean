import RecordMapper.Proofs.Entries
import RecordMapper.Proofs.Outcomes
import RecordMapper.Store.Write

/-!
# Refusals — rows that cannot be inserted

A key that stands in a table cannot be inserted there again. Of the other
values it matters only whether their names are columns: where they are, an
insert is refused for the same reason whatever the values are.
-/

namespace RecordMapper.Store

variable {reg : Registry} {st : Store} {m : Model} {pk : Value} {now : Instant} {values values' : Record}

/-- A name that is a column of a model besides its key. -/
def NamesColumn (reg : Registry) (m : Model) (name : String) : Prop :=
  ∃ f, reg.field? m name = some f ∧ f.isConcrete

/-- Where all but the key are columns, only naming the key can be wrong. -/
theorem checkColumns_of_columns (h : ∀ e ∈ values, e.1 ≠ m.pkName → NamesColumn reg m e.1) :
    checkColumns reg m values =
      if m.pkName ∈ values.names then checkColumns reg m [(m.pkName, .null)] else .ok () := by
  induction values with
  | nil => rfl
  | cons e rest ih =>
      have hstep : checkColumns reg m (e :: rest) = (checkColumns reg m [(e.1, .null)] >>= fun _ =>
          checkColumns reg m rest) := by
        simp only [checkColumns, List.forM_eq_forM, List.forM_cons, List.forM_nil, bind_assoc, pure_bind]
      rw [hstep, ih fun e he => h e (List.mem_cons_of_mem _ he)]
      simp only [Record.names, List.map_cons, List.mem_cons]
      by_cases hkey : e.1 = m.pkName
      · -- What the name of the key comes to it comes to once more.
        rw [hkey, if_pos (.inl rfl)]
        cases hr : checkColumns reg m [(m.pkName, .null)] with
        | error f => rfl
        | ok u =>
            rw [Outcome.ok_bind]
            exact ite_self (Except.ok u)
      · obtain ⟨f, hf, hconcrete⟩ := h e List.mem_cons_self hkey
        have hok : checkColumns reg m [(e.1, .null)] = .ok () := by
          simp only [checkColumns, List.forM_eq_forM, List.forM_cons, List.forM_nil, hf, hconcrete]
          split <;> rfl
        rw [hok, Outcome.ok_bind]
        simp only [Ne.symm hkey, false_or]
        exact if_congr .rfl rfl rfl

/-- Values that are checked alike and give one key. -/
structure SameRequest (reg : Registry) (m : Model) (values values' : Record) : Prop where
  columns : checkColumns reg m values' = checkColumns reg m values
  key : givenKey? m values' = givenKey? m values

/-- An insert under a key that stands already is refused, and its other values do not matter. -/
theorem insert_refused (h : SameRequest reg m values values') (hkey : givenKey? m values = some pk)
    (hstands : st.contains (reg.rootOf m) pk) :
    insert reg now st m values' = insert reg now st m values ∧ (insert reg now st m values).toOption = none := by
  have hgiven : pk.isNull = false := by simpa using (Option.filter_eq_some_iff.mp hkey).2
  have hall : ∀ {given : Record}, givenKey? m given = some pk → insert reg now st m given = (do
      checkColumns reg m given
      let _ ← reg.field m m.pkName
      throw (.uniqueViolated (reg.rootOf m).name m.pkName)) := by
    intro given hgivenKey
    simp only [insert, newKey, hgivenKey, hgiven, hstands, if_true, Bool.false_eq_true, if_false]
    rfl
  rw [hall hkey, hall (h.key.trans hkey), h.columns]
  refine ⟨rfl, ?_⟩
  cases checkColumns reg m values with
  | error f => rfl
  | ok u => cases reg.field m m.pkName <;> rfl

/-- An insert below a parent is refused as well. -/
theorem insertChild_refused (h : SameRequest reg m values values')
    (hstands : ∀ pk, givenKey? m values = some pk → st.contains m pk) :
    insertChild reg now st m values' = insertChild reg now st m values ∧
      (insertChild reg now st m values).toOption = none := by
  have hall : ∃ f : Failure, ∀ given, givenKey? m given = givenKey? m values →
      insertChild reg now st m given = (checkColumns reg m given >>= fun _ => .error f) := by
    cases hkey : givenKey? m values with
    | none =>
        refine ⟨.notNullViolated m.name m.pkName, fun given hgiven => ?_⟩
        simp only [insertChild, hgiven]
        rfl
    | some pk =>
        have hstands := hstands pk hkey
        cases hparent : reg.parent? m with
        | none =>
            refine ⟨.noParentTable m.name, fun given hgiven => ?_⟩
            simp only [insertChild, hgiven, hparent]
            rfl
        | some parent =>
            cases hfound : st.contains parent pk with
            | false =>
                refine ⟨.foreignKeyViolated m.name m.pkName, fun given hgiven => ?_⟩
                simp only [insertChild, hgiven, hparent, hfound]
                rfl
            | true =>
                refine ⟨.uniqueViolated m.name m.pkName, fun given hgiven => ?_⟩
                simp only [insertChild, hgiven, hparent, hfound, hstands]
                rfl
  obtain ⟨f, hall⟩ := hall
  rw [hall _ rfl, hall _ h.key, h.columns]
  refine ⟨rfl, ?_⟩
  cases checkColumns reg m values <;> rfl

/-! ## Rows that name columns -/

/-- Values that name columns of a model, and the given key if there is one. -/
structure NamesRow (reg : Registry) (m : Model) (key : Option Value) (values : Record) : Prop where
  key : values.lookup m.pkName = key
  columns : ∀ e ∈ values, e.1 ≠ m.pkName → e.1 ≠ "pk" ∧ NamesColumn reg m e.1

variable {key : Option Value}

theorem NamesRow.givenKey? (h : NamesRow reg m key values) :
    givenKey? m values = key.filter fun v => !v.isNull := by
  have halias : m.pkName ≠ "pk" → values.lookup "pk" = none := fun hne => by
    refine lookup_eq_none_iff_not_mem_keys.mpr fun hmem => ?_
    obtain ⟨e, he, hname⟩ := List.mem_map.mp hmem
    exact (h.columns e he (hname ▸ hne.symm)).1 hname
  rw [Store.givenKey?, Record.get?, Record.get?, h.key]
  by_cases hpk : m.pkName = "pk"
  · rw [← hpk, h.key, Option.or_self]
  · rw [halias hpk, Option.or_none]

/-- Where the key is a column too, nothing is wrong with the names. -/
theorem NamesRow.checkColumns (h : NamesRow reg m key values) (hkey : NamesColumn reg m m.pkName) :
    checkColumns reg m values = .ok () := by
  obtain ⟨f, hf, hconcrete⟩ := hkey
  rw [checkColumns_of_columns fun e he hne => (h.columns e he hne).2]
  simp only [Store.checkColumns, List.forM_eq_forM, List.forM_cons, List.forM_nil, hf, hconcrete]
  split
  · split <;> rfl
  · rfl

/-- Rows of one key that name columns are requested alike. -/
theorem NamesRow.sameRequest (h : NamesRow reg m key values) (h' : NamesRow reg m key values') :
    SameRequest reg m values values' := by
  have hnames : m.pkName ∈ values'.names ↔ m.pkName ∈ values.names := by
    rw [Record.names, Record.names, ← lookup_isSome_iff_mem_keys, ← lookup_isSome_iff_mem_keys, h.key, h'.key]
  refine ⟨?_, h'.givenKey?.trans h.givenKey?.symm⟩
  rw [checkColumns_of_columns fun e he hne => (h.columns e he hne).2,
    checkColumns_of_columns fun e he hne => (h'.columns e he hne).2]
  exact if_congr hnames rfl rfl

/-- Rows of one key that stands already are refused below a parent. -/
theorem NamesRow.insertChild_refused (h : NamesRow reg m key values) (h' : NamesRow reg m key values')
    (hstands : ∀ pk, key = some pk → st.contains m pk) :
    insertChild reg now st m values' = insertChild reg now st m values ∧
      (insertChild reg now st m values).toOption = none :=
  Store.insertChild_refused (h.sameRequest h') fun pk hpk =>
    hstands pk (Option.filter_eq_some_iff.mp (h.givenKey?.symm.trans hpk)).1

end RecordMapper.Store
