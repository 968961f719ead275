import RecordMapper.Store.Write
import RecordMapper.Proofs.Outcomes
import RecordMapper.Store.Basic
import RecordMapper.Proofs.Entries
import RecordMapper.Proofs.Registry.Lineage

/-!
# Constraints — what the columns of a store obey

`Filled`, `Unrepeated` and `Counted` say what the columns and the key
counters of a store promise, `Inherits` that the keys of a model stand
in the tables of its ancestors too. `WellKept` collects the first three
with what a change needs to keep them.

A change keeps a store well kept when every row it leaves in a table is
either the row that stood there before or one that `Passes` on its own
(`Change`). All writes are changes of this kind.
-/

/-!
## Tables — reading a store after one table was written

Writing or erasing a part of a row touches the table of one model. The
laws come in pairs, one for that table and one for every other; a key
that stands in a table reads its own row, whatever a sole key would
also answer to. A column that a model declares is read from the table
of that model alone.
-/

namespace RecordMapper.Store

variable {reg : Registry} {st st' : Store} {m m' : Model} {k k' : Value} {row : Record}

/-! ## One table and the others -/

@[simp] theorem table_setTable_self (st : Store) (m : Model) (t : Table) :
    (st.setTable m t).table m = t := by
  rw [table, setTable, lookup_insertEntry_self]
  rfl

theorem table_setTable_ne (st : Store) (t : Table) (h : m'.name ≠ m.name) :
    (st.setTable m t).table m' = st.table m' := by
  rw [table, setTable, lookup_insertEntry_ne _ h, table]

theorem table_setRow_self (st : Store) (m : Model) (k : Value) (row : Record) :
    (st.setRow m k row).table m = { st.table m with rows := insertEntry (st.table m).rows k row } :=
  table_setTable_self ..

theorem table_setRow_ne (st : Store) (k : Value) (row : Record) (h : m'.name ≠ m.name) :
    (st.setRow m k row).table m' = st.table m' :=
  table_setTable_ne _ _ h

/-- Models that differ have tables of their own. -/
theorem table_setRow_of_ne (hr : reg.Rooted) (hm : m ∈ reg.models) (hm' : m' ∈ reg.models) (he : m' ≠ m)
    (st : Store) (k : Value) (row : Record) : (st.setRow m k row).table m' = st.table m' :=
  table_setRow_ne st k row fun hn => he (hr.eq_of_name hm' hm hn)

theorem table_eraseRow_self (st : Store) (m : Model) (k : Value) :
    (st.eraseRow m k).table m = { st.table m with rows := Keyed.erase (st.table m).rows k } :=
  table_setTable_self ..

theorem table_eraseRow_ne (st : Store) (k : Value) (h : m'.name ≠ m.name) :
    (st.eraseRow m k).table m' = st.table m' :=
  table_setTable_ne _ _ h

theorem keys_congr (h : (st'.table m).rows = (st.table m).rows) : st'.keys m = st.keys m := by
  rw [keys, keys, h]

theorem row?_congr (h : (st'.table m).rows = (st.table m).rows) (k : Value) :
    st'.row? m k = st.row? m k := by
  rw [row?, row?, h]

/-! ## Keys and rows -/

theorem row?_of_mem (h : k ∈ st.keys m) : st.row? m k = (st.table m).rows.lookup k :=
  Keyed.get?_of_mem h

theorem contains_of_mem (h : k ∈ st.keys m) : st.contains m k = true :=
  Keyed.get?_isSome_of_mem h

theorem not_mem_of_contains (h : st.contains m k = false) : k ∉ st.keys m := by
  intro hk
  rw [contains_of_mem hk] at h
  cases h

theorem mem_keys_setRow : k' ∈ (st.setRow m k row).keys m ↔ k' = k ∨ k' ∈ st.keys m := by
  rw [keys, table_setRow_self]
  exact mem_keys_insertEntry

theorem keys_setRow_of_mem (row : Record) (h : k ∈ st.keys m) :
    (st.setRow m k row).keys m = st.keys m := by
  rw [keys, table_setRow_self]
  exact keys_insertEntry_of_mem row h

theorem nodup_keys_setRow (k : Value) (row : Record) (h : (st.keys m).Nodup) :
    ((st.setRow m k row).keys m).Nodup := by
  rw [keys, table_setRow_self]
  exact nodup_keys_insertEntry k row h

/-- Writing a row leaves the rows under the other keys of its table. -/
theorem row?_setRow_ne (row : Record) (hk : k' ∈ st.keys m) (h : k' ≠ k) :
    (st.setRow m k row).row? m k' = st.row? m k' := by
  rw [row?_of_mem (mem_keys_setRow.mpr (.inr hk)), row?_of_mem hk, table_setRow_self]
  exact lookup_insertEntry_ne _ h row

/-- A row after one was written is one from before or that one. -/
theorem setRow_row_cases {row : Record} (hr : reg.Rooted) (hm : m ∈ reg.models) (hm' : m' ∈ reg.models)
    (hk : k ∈ (st.setRow m pk row).keys m') :
    (k ∈ st.keys m' ∧ (st.setRow m pk row).row? m' k = st.row? m' k) ∨ (k = pk ∧ m' = m) := by
  by_cases he : m' = m
  · subst he
    by_cases hkp : k = pk
    · exact .inr ⟨hkp, rfl⟩
    · have hold := (mem_keys_setRow.mp hk).resolve_left hkp
      exact .inl ⟨hold, row?_setRow_ne row hold hkp⟩
  · have hrows := congrArg Table.rows (table_setRow_of_ne hr hm hm' he st pk row)
    exact .inl ⟨keys_congr hrows ▸ hk, row?_congr hrows k⟩

theorem mem_keys_eraseRow :
    k' ∈ (st.eraseRow m k).keys m ↔ k' ∈ st.keys m ∧ k' ≠ Keyed.seat (st.table m).rows k := by
  rw [keys, table_eraseRow_self]
  exact Keyed.mem_keys_erase

/-- Erasing a row leaves the rows of the keys that stay. -/
theorem row?_eraseRow (hk : k' ∈ (st.eraseRow m k).keys m) :
    (st.eraseRow m k).row? m k' = st.row? m k' := by
  obtain ⟨hmem, hne⟩ := mem_keys_eraseRow.mp hk
  rw [row?_of_mem hk, row?_of_mem hmem, table_eraseRow_self]
  exact lookup_eraseEntry_ne _ hne

/-! ## Columns -/

section Columns

variable {reg : Registry} {f : Field}

theorem columnOwner?_of_own (hr : reg.Rooted) (hm : m ∈ reg.models) (hf : f ∈ m.own)
    (hc : f.isConcrete) : columnOwner? reg m f.name = some m := by
  rw [columnOwner?]
  split
  · rfl
  · obtain ⟨above, hl⟩ := hr.lineage_eq_cons hm
    rw [hl, List.find?_cons_of_pos]
    exact List.any_eq_true.mpr ⟨f, hf, by simp [hc]⟩

/-- A declared column is read from the model's own row. -/
theorem cell_of_own (hr : reg.Rooted) (hm : m ∈ reg.models) (hf : f ∈ m.own) (hc : f.isConcrete)
    (st : Store) (k : Value) :
    cell reg st m k f.name =
      if f.name == "pk" || f.name == m.pkName then k
      else ((st.row? m k).map (Record.getD · f.name)).getD .null := by
  rw [cell]
  split
  · rfl
  · rw [columnOwner?_of_own hr hm hf hc]
    cases h : st.row? m k <;> simp only [h] <;> rfl

/-- A declared column changes only with the model's own row. -/
theorem cell_congr (hr : reg.Rooted) (hm : m ∈ reg.models) (hf : f ∈ m.own) (hc : f.isConcrete)
    (h : st'.row? m k = st.row? m k) : cell reg st' m k f.name = cell reg st m k f.name := by
  rw [cell_of_own hr hm hf hc, cell_of_own hr hm hf hc, h]

end Columns

end RecordMapper.Store

/-! ## Constraints -/

namespace RecordMapper

namespace Value

/-- Neither of two different values is equal to the other. -/
def Apart (a b : Value) : Prop := a ≠ b ∧ a.equiv b = false ∧ b.equiv a = false

/-- Each of two values is equal to the other. -/
def Alike (a b : Value) : Prop := a.equiv b = true ∧ b.equiv a = true

end Value

namespace Store

/-- A key in the table of a model stands in the tables of all its ancestors. -/
def Inherits (reg : Registry) (st : Store) : Prop :=
  ∀ m ∈ reg.models, ∀ upper ∈ reg.lineage m, st.keys m ⊆ st.keys upper

instance (reg : Registry) (st : Store) : Decidable (Inherits reg st) :=
  inferInstanceAs (Decidable (∀ m ∈ reg.models, ∀ upper ∈ reg.lineage m, st.keys m ⊆ st.keys upper))

/-- A column that may not be null holds a value in every row. -/
def Filled (reg : Registry) (st : Store) : Prop :=
  ∀ m ∈ reg.models, ∀ f ∈ m.own, f.isConcrete → f.primaryKey = false → f.null = false →
    ∀ k ∈ st.keys m, (cell reg st m k f.name).isNull = false

/-- A unique column holds no value twice. -/
def Unrepeated (reg : Registry) (st : Store) : Prop :=
  ∀ m ∈ reg.models, ∀ f ∈ m.own, f.isConcrete → f.primaryKey = false → f.unique →
    ∀ k ∈ st.keys m, ∀ k' ∈ st.keys m, k.Apart k' → (cell reg st m k f.name).isNull = false →
      ¬ (cell reg st m k f.name).Alike (cell reg st m k' f.name)

/-- No integer key of a table at the top of an inheritance is above the table's counter. -/
def Counted (reg : Registry) (st : Store) : Prop :=
  ∀ m ∈ reg.models, m.parent = none → ∀ n, Value.int n ∈ st.keys m →
    n.toInt ≤ (st.table m).lastId.toInt

/-- A store whose columns obey their rules. No table has a key twice, and all keys are of the kind
`P`. -/
structure WellKept (reg : Registry) (P : Value → Prop) (st : Store) : Prop where
  nodup : ∀ m ∈ reg.models, (st.keys m).Nodup
  keyed : ∀ m ∈ reg.models, ∀ k ∈ st.keys m, P k
  filled : Filled reg st
  unrepeated : Unrepeated reg st
  counted : Counted reg st

theorem WellKept.empty (reg : Registry) (P : Value → Prop) : WellKept reg P Store.empty where
  nodup _ _ := List.nodup_nil
  keyed _ _ _ hk := by cases hk
  filled _ _ _ _ _ _ _ _ hk := by cases hk
  unrepeated _ _ _ _ _ _ _ _ hk := by cases hk
  counted _ _ _ _ hk := by cases hk

theorem Inherits.empty (reg : Registry) : Inherits reg Store.empty :=
  fun _ _ _ _ _ hk => by cases hk

/-! ## Rows that pass on their own -/

/-- The row of a key obeys the rules of the columns that the model declares. -/
def Passes (reg : Registry) (st : Store) (m : Model) (k : Value) : Prop :=
  ∀ f ∈ m.own, f.isConcrete → f.primaryKey = false →
    (f.null = false → (cell reg st m k f.name).isNull = false) ∧
    (f.unique → (cell reg st m k f.name).isNull = false → ∀ other ∈ st.keys m, other ≠ k →
      other.equiv k = false → (cell reg st m other f.name).equiv (cell reg st m k f.name) = false)

variable {reg : Registry} {st st' : Store} {m : Model} {k : Value} {P : Value → Prop}

/-- All that the check of a column asks. -/
theorem checkCell_eq_ok_iff {f : Field} : checkCell reg st m k f = .ok () ↔
    f.primaryKey = true ∨ ((cell reg st m k f.name).isNull = true ∧ f.null = true) ∨
      ((cell reg st m k f.name).isNull = false ∧
        (f.unique = true → ∀ other ∈ st.keys m, other.equiv k = false →
          (cell reg st m other f.name).equiv (cell reg st m k f.name) = false) ∧
        (f.isForeignKey = true → ∃ t, reg.related m f = .ok t ∧ st.contains t (cell reg st m k f.name) = true)) := by
  have hrepeated : (st.keys m).any (fun other => !(other.equiv k) &&
      (cell reg st m other f.name).equiv (cell reg st m k f.name)) = false ↔
      ∀ other ∈ st.keys m, other.equiv k = false →
        (cell reg st m other f.name).equiv (cell reg st m k f.name) = false := by
    simp only [List.any_eq_false, Bool.and_eq_true, Bool.not_eq_true', not_and, Bool.not_eq_true]
  rw [checkCell, ← hrepeated]
  generalize cell reg st m k f.name = v
  generalize (st.keys m).any _ = repeated
  cases f.primaryKey with
  | true => simp
  | false =>
      cases v.isNull with
      | true => cases f.null <;> simp [throw, throwThe, MonadExceptOf.throw]
      | false =>
          cases f.unique <;> cases repeated <;> cases f.isForeignKey <;> cases reg.related m f with
          | error e => simp [throw, throwThe, MonadExceptOf.throw]
          | ok t => cases hc : st.contains t v <;> simp [throw, throwThe, MonadExceptOf.throw, hc]

theorem checkCell_eq_ok {f : Field} (h : checkCell reg st m k f = .ok ()) (hp : f.primaryKey = false) :
    (f.null = false → (cell reg st m k f.name).isNull = false) ∧
    (f.unique → (cell reg st m k f.name).isNull = false → ∀ other ∈ st.keys m,
      other.equiv k = false → (cell reg st m other f.name).equiv (cell reg st m k f.name) = false) := by
  rcases checkCell_eq_ok_iff.mp h with hkey | ⟨hnull, hf⟩ | ⟨hv, hunique, _⟩
  · rw [hp] at hkey
    cases hkey
  · refine ⟨fun hn => ?_, fun _ hv => ?_⟩
    · rw [hf] at hn
      cases hn
    · rw [hnull] at hv
      cases hv
  · exact ⟨fun _ => hv, fun hu _ => hunique hu⟩

theorem mem_localColumns {f : Field} (hf : f ∈ m.own) (hc : f.isConcrete) :
    f ∈ reg.localColumns m :=
  List.mem_append_right _ (List.mem_filter.mpr ⟨hf, hc⟩)

/-- A row that was checked passes in the tables of its model and of all ancestors. -/
theorem passes_of_checkRow (h : checkRow reg st m k = .ok ()) {level : Model}
    (hl : level ∈ reg.lineage m) : Passes reg st level k := by
  intro f hf hc hp
  have hlevel := Outcome.forM_eq_ok.mp h level hl
  obtain ⟨hnull, hunique⟩ := checkCell_eq_ok (Outcome.forM_eq_ok.mp hlevel f (mem_localColumns hf hc)) hp
  exact ⟨hnull, fun hu hv other ho _ => hunique hu hv other ho⟩

/-! ## Changes -/

/-- Every row after a change is one from before or passes on its own. -/
structure Change (reg : Registry) (P : Value → Prop) (st st' : Store) : Prop where
  nodup : ∀ m ∈ reg.models, (st'.keys m).Nodup
  rows : ∀ m ∈ reg.models, ∀ k ∈ st'.keys m,
    (k ∈ st.keys m ∧ st'.row? m k = st.row? m k) ∨ (P k ∧ Passes reg st' m k)
  counted : Counted reg st'

namespace WellKept

theorem change (hr : reg.Rooted) (h : WellKept reg P st) (hc : Change reg P st st') :
    WellKept reg P st' where
  nodup := hc.nodup
  keyed m hm k hk := by
    rcases hc.rows m hm k hk with ⟨hold, _⟩ | ⟨hP, _⟩
    · exact h.keyed m hm k hold
    · exact hP
  filled m hm f hf hconc hp hn k hk := by
    rcases hc.rows m hm k hk with ⟨hold, hrow⟩ | ⟨_, hpass⟩
    · rw [cell_congr hr hm hf hconc hrow]
      exact h.filled m hm f hf hconc hp hn k hold
    · exact (hpass f hf hconc hp).1 hn
  unrepeated m hm f hf hconc hp hu k hk k' hk' hne hv halike := by
    obtain ⟨hkk, hequiv, hequiv'⟩ := hne
    -- one row that passes tells itself from all others, two old rows were told apart before
    rcases hc.rows m hm k' hk' with ⟨hold', hrow'⟩ | ⟨_, hpass'⟩
    · rcases hc.rows m hm k hk with ⟨hold, hrow⟩ | ⟨_, hpass⟩
      · rw [cell_congr hr hm hf hconc hrow] at hv halike
        rw [cell_congr hr hm hf hconc hrow'] at halike
        exact h.unrepeated m hm f hf hconc hp hu k hold k' hold' ⟨hkk, hequiv, hequiv'⟩ hv halike
      · have := (hpass f hf hconc hp).2 hu hv k' hk' (Ne.symm hkk) hequiv'
        rw [halike.2] at this
        cases this
    · have hv' : (cell reg st' m k' f.name).isNull = false := by
        cases hc' : cell reg st' m k' f.name <;> try rfl
        rw [hc'] at halike
        cases hck : cell reg st' m k f.name <;> rw [hck] at halike hv <;> cases hv <;> cases halike.1
      have := (hpass' f hf hconc hp).2 hu hv' k hk hkk hequiv
      rw [halike.1] at this
      cases this
  counted := hc.counted

end WellKept

end Store

end RecordMapper
