import RecordMapper.Proofs.Read.Plans
import RecordMapper.Proofs.Store.Hops
import RecordMapper.Proofs.Store.Selection
import RecordMapper.Store.Fetch

/-!
# Fetched records — what stands under the name of a column

A record of a row has under a label a value of the column of that label.
The path of a primary key leads from a row to its key alone, and a test
against nothing but nulls lets no row pass.
-/

namespace RecordMapper.Store

variable {reg : Registry} {st : Store} {m : Model} {named : Named} {columns : List SelectColumn}
  {pk v : Value} {records : List Record} {label : String}

/-! ## Records of a row -/

/-- One more column is put into every record. -/
theorem record_of_mem_step {e : Expression} {l : String} {before after : List Record} {r : Record}
    (h : (do
      let cells ← columnCells reg st m named pk e
      return before.flatMap fun r => cells.map fun v => r.insert l v) = (.ok after : Outcome _))
    (hr : r ∈ after) : ∃ cells, columnCells reg st m named pk e = .ok cells ∧
      ∃ r' ∈ before, ∃ v ∈ cells, r = r'.insert l v := by
  obtain ⟨cells, hcells, h⟩ := Outcome.bind_eq_ok.mp h
  cases h
  obtain ⟨r', hr', hr⟩ := List.mem_flatMap.mp hr
  obtain ⟨v, hv, rfl⟩ := List.mem_map.mp hr
  exact ⟨cells, hcells, r', hr', v, hv, rfl⟩

/-- Under a label that belongs to one expression stands one of its values. -/
theorem lookup_of_mem_rowRecords {e : Expression} {vs : List Value}
    (h : rowRecords reg st m named columns pk = .ok records)
    (hall : ∀ c ∈ columns, c.label = label → c.expr = e) (hmem : ∃ c ∈ columns, c.label = label)
    (hcells : columnCells reg st m named pk e = .ok vs) :
    ∀ r ∈ records, ∃ v ∈ vs, r.lookup label = some v := by
  obtain ⟨c, hc, hlabel⟩ := hmem
  have hput : ∀ c ∈ columns, c.label = label → ∀ before after : List Record, (do
      let cells ← columnCells reg st m named pk c.expr
      return before.flatMap fun r => cells.map fun v => r.insert c.label v) = (.ok after : Outcome _) →
        ∀ r ∈ after, ∃ v ∈ vs, r.lookup label = some v := by
    intro c hc hlabel before after hstep r hr
    obtain ⟨cells, hcells', r', _, v, hv, rfl⟩ := record_of_mem_step hstep hr
    rw [hall c hc hlabel, hcells] at hcells'
    cases hcells'
    exact ⟨v, hv, hlabel ▸ Record.lookup_insert_self r' c.label v⟩
  refine Outcome.foldlM_reaches (P := fun rs => ∀ r ∈ rs, ∃ v ∈ vs, r.lookup label = some v)
    (fun c' hc' before after hbefore hstep r hr => ?_) hc (hput c hc hlabel) h
  by_cases hlabel' : c'.label = label
  · exact hput c' hc' hlabel' before after hstep r hr
  · obtain ⟨_, _, r', hr', v, _, rfl⟩ := record_of_mem_step hstep hr
    rw [Record.lookup_insert_ne r' (Ne.symm hlabel')]
    exact hbefore r' hr'

/-- Under a label that no column has stands nothing. -/
theorem lookup_of_not_mem_rowRecords (h : rowRecords reg st m named columns pk = .ok records)
    (hnone : ∀ c ∈ columns, c.label ≠ label) : ∀ r ∈ records, r.lookup label = none := by
  refine Outcome.foldlM_keeps (P := fun rs => ∀ r ∈ rs, r.lookup label = none)
    (fun c hc before after hbefore hstep r hr => ?_) (by simp) h
  obtain ⟨_, _, r', hr', v, _, rfl⟩ := record_of_mem_step hstep hr
  rw [Record.lookup_insert_ne r' (Ne.symm (hnone c hc))]
  exact hbefore r' hr'

theorem columnCells_ne_nil {e : Expression} {cells : List Value}
    (h : columnCells reg st m named pk e = .ok cells) : cells ≠ [] := by
  unfold columnCells at h
  split at h
  · obtain ⟨vs, _, h⟩ := Outcome.bind_eq_ok.mp h
    cases h
    split
    · simp
    · rename_i hvs
      simpa using hvs
  · obtain ⟨v, _, h⟩ := Outcome.bind_eq_ok.mp h
    cases h
    simp

/-- Every row has a record. -/
theorem rowRecords_ne_nil (h : rowRecords reg st m named columns pk = .ok records) : records ≠ [] := by
  refine Outcome.foldlM_keeps (P := (· ≠ [])) (fun c _ before after hbefore hstep => ?_) (by simp) h
  obtain ⟨cells, hcells, hstep⟩ := Outcome.bind_eq_ok.mp hstep
  cases hstep
  obtain ⟨r, hr⟩ := List.exists_mem_of_ne_nil _ hbefore
  obtain ⟨v, hv⟩ := List.exists_mem_of_ne_nil _ (columnCells_ne_nil hcells)
  exact List.ne_nil_of_mem (List.mem_flatMap.mpr ⟨r, hr, List.mem_map_of_mem hv⟩)

/-- A fetch whose window allows for its expressions succeeds if the rows can be selected and every column has values
on them. -/
theorem exists_fetch {qs : Queryset} {pks : List Value}
    (hallowed : (qs.isSliced && (columns.map SelectColumn.expr ++ qs.annotations.map Prod.snd ++
      qs.ordering.map OrderTerm.expr).any (reg.aggregatesMany qs.model)) = false)
    (hselect : select reg st qs = .ok pks)
    (h : ∀ pk ∈ pks, ∀ c ∈ columns, ∃ cells,
      columnCells reg st qs.model (Expression.annotationsOf reg st qs) pk c.expr = .ok cells) :
    ∃ records, st.fetch reg qs columns = .ok records := by
  have hrow : ∀ pk ∈ pks, ∃ own,
      rowRecords reg st qs.model (Expression.annotationsOf reg st qs) columns pk = .ok own ∧ True := by
    intro pk hpk
    have hstep : ∀ c ∈ columns, ∀ before : List Record, ∃ after, (do
        let cells ← columnCells reg st qs.model (Expression.annotationsOf reg st qs) pk c.expr
        return before.flatMap fun r => cells.map fun v => r.insert c.label v) = (.ok after : Outcome _) := by
      intro c hc before
      obtain ⟨cells, hcells⟩ := h pk hpk c hc
      exact ⟨_, by rw [hcells]; rfl⟩
    obtain ⟨own, hown⟩ := Outcome.exists_foldlM hstep [[]]
    exact ⟨own, hown, trivial⟩
  obtain ⟨all, hall, -⟩ := Outcome.exists_mapM hrow
  refine ⟨all.flatten, ?_⟩
  rw [fetch]
  simp only [hallowed, Bool.false_eq_true, if_false, hselect, Outcome.ok_bind, hall]
  rfl

/-! ## Keys -/

/-- A path of one name leads from a row to the value of the column of that name. -/
theorem pathValues_of_name {path name : String} {f : Field} (hnames : dottedNames path = [name])
    (hf : reg.field m name = .ok f) (hconcrete : f.isConcrete) :
    pathValues reg st m pk path = .ok [cell reg st m pk f.name] := by
  rw [pathValues, hnames, follow, hf, Outcome.ok_bind, List.mapM_cons, List.mapM_nil,
    step_of_isConcrete hconcrete]
  · rfl
  · simp

/-- A path of one column leads from a row to its value. -/
theorem pathValues_direct {path : String} {p : ResolvedPath} (hp : reg.resolvePath m path = .ok p)
    (hdirect : p.before = []) (hconcrete : p.last.field.isConcrete) :
    pathValues reg st m pk path = .ok [cell reg st m pk p.last.field.name] := by
  obtain ⟨name, hnames, hf⟩ := Registry.name_of_direct hp hdirect
  exact pathValues_of_name hnames hf hconcrete

/-- The path of a primary key leads from a row to its key. -/
theorem pathValues_key {path : String} {p : ResolvedPath} (hp : reg.resolvePath m path = .ok p)
    (hdirect : p.before = []) (hname : p.last.field.name = m.pkName)
    (hconcrete : p.last.field.isConcrete) : pathValues reg st m pk path = .ok [pk] := by
  rw [pathValues_direct hp hdirect hconcrete, cell, hname, beq_self_eq_true, Bool.or_true, if_pos rfl]

/-- Where some path leads to the column of the primary key, so does the name of the key. -/
theorem pathValues_keyName (hdot : dottedNames m.pkName = [m.pkName]) {path : String} {p : ResolvedPath}
    (hp : reg.resolvePath m path = .ok p) (hdirect : p.before = []) (hname : p.last.field.name = m.pkName)
    (hconcrete : p.last.field.isConcrete) : pathValues reg st m pk m.pkName = .ok [pk] := by
  obtain ⟨name, _, hf⟩ := Registry.name_of_direct hp hdirect
  -- Fields are looked up by what a name stands for, and both names stand for the key.
  have hsame : m.fieldName m.pkName = m.fieldName name := by
    rw [Registry.fieldName_pkName, ← Registry.name_eq_of_field? (Registry.field_eq_ok.mp hf), hname]
  have hkey : reg.field m m.pkName = .ok p.last.field := by
    rw [Registry.field, Registry.field?, hsame]
    exact hf
  rw [pathValues_of_name hdot hkey hconcrete, cell, hname, beq_self_eq_true, Bool.or_true, if_pos rfl]

/-- A column of a row is fetched as the value that leads to it. -/
theorem columnCells_of_pathValues {path : String} (hnamed : named path = none)
    (h : pathValues reg st m pk path = .ok [v]) : columnCells reg st m named pk (.column path) = .ok [v] := by
  simp only [columnCells, columnValues, hnamed, h, Outcome.ok_bind]
  rfl

theorem columnCells_key {path : String} {p : ResolvedPath} (hnamed : named path = none)
    (hp : reg.resolvePath m path = .ok p) (hdirect : p.before = [])
    (hname : p.last.field.name = m.pkName) (hconcrete : p.last.field.isConcrete) :
    columnCells reg st m named pk (.column path) = .ok [pk] :=
  columnCells_of_pathValues hnamed (pathValues_key hp hdirect hname hconcrete)

/-- What is fetched are the records of the selected rows, row by row, if the window allows for the expressions. -/
theorem fetch_eq_ok_iff {qs : Queryset} : st.fetch reg qs columns = .ok records ↔
    (qs.isSliced && (columns.map SelectColumn.expr ++ qs.annotations.map Prod.snd ++ qs.ordering.map OrderTerm.expr).any
      (reg.aggregatesMany qs.model)) = false ∧
    ∃ pks, ∃ own : Value → List Record, select reg st qs = .ok pks ∧
      (∀ pk ∈ pks, rowRecords reg st qs.model (Expression.annotationsOf reg st qs) columns pk = .ok (own pk)) ∧
      records = pks.flatMap own := by
  unfold fetch
  simp only
  split
  · rename_i hrefused
    rw [hrefused]
    exact ⟨nofun, nofun⟩
  · rename_i hallowed
    rw [Bool.not_eq_true] at hallowed
    rw [hallowed]
    constructor
    · intro h
      obtain ⟨pks, hpks, h⟩ := Outcome.bind_eq_ok.mp h
      obtain ⟨groups, hgroups, h⟩ := Outcome.bind_eq_ok.mp h
      cases h
      have hown : ∀ pk ∈ pks, rowRecords reg st qs.model (Expression.annotationsOf reg st qs) columns pk =
          .ok ((rowRecords reg st qs.model (Expression.annotationsOf reg st qs) columns pk).toOption.getD []) := by
        intro pk hpk
        obtain ⟨own, -, hown⟩ := Outcome.exists_of_mapM hgroups hpk
        rw [hown]
        rfl
      obtain rfl := Except.ok.inj ((Outcome.mapM_ok hown).symm.trans hgroups)
      exact ⟨rfl, pks, _, hpks, hown, (List.flatMap_def ..).symm⟩
    · rintro ⟨-, pks, own, hpks, hown, rfl⟩
      rw [hpks, Outcome.ok_bind, Outcome.mapM_ok hown, Outcome.ok_bind, List.flatMap_def]
      rfl

/-- A record that is fetched belongs to a selected row. -/
theorem exists_of_mem_fetch {qs : Queryset} (h : st.fetch reg qs columns = .ok records) {row : Record}
    (hrow : row ∈ records) : ∃ pks, select reg st qs = .ok pks ∧ ∃ pk ∈ pks, pk ∈ st.keys qs.model ∧
      ∃ own, rowRecords reg st qs.model (Expression.annotationsOf reg st qs) columns pk = .ok own ∧
        row ∈ own := by
  obtain ⟨-, pks, own, hpks, hown, rfl⟩ := fetch_eq_ok_iff.mp h
  obtain ⟨pk, hpk, hmem⟩ := List.mem_flatMap.mp hrow
  exact ⟨pks, hpks, pk, hpk, (select_subperm hpks).subset hpk, own pk, hown pk hpk, hmem⟩

/-- A row that is selected has a record that is fetched. -/
theorem exists_mem_fetch {qs : Queryset} {pks : List Value} (h : st.fetch reg qs columns = .ok records)
    (hselect : select reg st qs = .ok pks) (hpk : pk ∈ pks) :
    ∃ own, rowRecords reg st qs.model (Expression.annotationsOf reg st qs) columns pk = .ok own ∧
      ∃ row ∈ own, row ∈ records := by
  obtain ⟨-, pks', own, hpks, hown, rfl⟩ := fetch_eq_ok_iff.mp h
  obtain rfl := Except.ok.inj (hselect.symm.trans hpks)
  obtain ⟨row, hrow⟩ := List.exists_mem_of_ne_nil _ (rowRecords_ne_nil (hown pk hpk))
  exact ⟨own pk, hown pk hpk, row, hrow, List.mem_flatMap.mpr ⟨pk, hpk, hrow⟩⟩

/-- No value is one of several nulls. -/
theorem not_holds_oneOf_nulls {vs : List Value} (h : ∀ v ∈ vs, v = .null) (v : Value) :
    (Lookup.oneOf vs).holds v = false := by
  have hholds : (Lookup.oneOf vs).holds v = if v.isNull then false else (Lookup.oneOf vs).holdsOf v := rfl
  rw [hholds]
  split
  · rfl
  · rename_i hv
    refine Bool.eq_false_iff.mpr fun hany => ?_
    obtain ⟨w, hw, hordered⟩ := List.any_eq_true.mp hany
    rw [h w hw, Lookup.ordered] at hordered
    cases v <;> simp [Value.compare?, Value.isNull] at hordered hv

/-- No row passes a test against nothing but nulls. -/
theorem select_oneOf_nulls {link : String} {vs pks : List Value} (hnull : ∀ v ∈ vs, v = .null)
    (h : select reg st ((Queryset.all m).filter (.test link (.oneOf vs))) = .ok pks) : pks = [] := by
  rw [List.eq_nil_iff_forall_not_mem]
  intro pk hpk
  have hpasses : passes reg st m _ (some (.test link (.oneOf vs))) pk = .ok true :=
    passes_of_mem_selectKeys h hpk
  rw [passes, Condition.holds] at hpasses
  obtain ⟨cells, _, htest⟩ := Outcome.bind_eq_ok.mp hpasses
  have hfalse := not_holds_oneOf_nulls hnull
  split at htest
  · rw [hfalse] at htest
    cases htest
  · have hany : cells.any (Lookup.oneOf vs).holds = true := Except.ok.inj htest
    obtain ⟨v, _, hv⟩ := List.any_eq_true.mp hany
    rw [hfalse v] at hv
    cases hv

end RecordMapper.Store

/-!
## Lookups — rows that are selected by their columns

A queryset with a condition selects the keys whose rows pass it, in the
order of the table. A plain value passes among those that are
listed if it is one of them, so a row that holds it is selected by the
list and is none of those that are left when the list is excluded.
-/

namespace RecordMapper.Store

variable {reg : Registry} {st : Store} {m : Model} {k : Value} {name : String}

/-- Whether a name leads from the rows of a model to the column of that name. -/
def IsColumn (reg : Registry) (m : Model) (name : String) : Prop :=
  ∃ p, reg.resolvePath m name = .ok p ∧ p.before = [] ∧ p.last.field.name = name ∧ p.last.field.isConcrete

/-- A name leads from every row of a model to the column of that name. -/
def Reads (reg : Registry) (m : Model) (name : String) : Prop :=
  ∀ st pk, columnValues reg st m (fun _ => none) pk name = .ok [cell reg st m pk name]

theorem IsColumn.reads (h : IsColumn reg m name) : Reads reg m name := by
  intro st pk
  obtain ⟨p, hp, hdirect, hname, hconcrete⟩ := h
  have hvalues : columnValues reg st m (fun _ => none) pk name = pathValues reg st m pk name := rfl
  rw [hvalues, pathValues_direct hp hdirect hconcrete, hname]

/-- A row passes the test of a column if its value does. -/
theorem passes_test (h : Reads reg m name) (l : Lookup) (pk : Value) :
    passes reg st m (fun _ => none) (some (.test name l)) pk = .ok (l.holds (cell reg st m pk name)) := by
  rw [passes, Condition.holds, h]
  simp

/-- A condition selects the keys whose rows pass it. -/
theorem select_passing {q : Condition} {p : Value → Bool}
    (h : ∀ pk ∈ st.keys m, passes reg st m (fun _ => none) (some q) pk = .ok (p pk)) :
    select reg st ((Queryset.all m).filter q) = .ok ((st.keys m).filter p) := by
  have hfilter : (st.keys m).filterM (fun pk => do
      if ← passes reg st m (fun _ => none) (some q) pk then
        reaches reg st m (fun _ => none) none pk
      else return false) = .ok ((st.keys m).filter p) := by
    refine Outcome.filterM_ok fun pk hpk => ?_
    rw [h pk hpk]
    cases p pk <;> rfl
  show selectKeys reg st m (fun _ => none) (some q) [] 0 none none = _
  rw [selectKeys, hfilter]
  rfl

/-- A test of a column selects the keys whose rows pass it. -/
theorem select_test (h : Reads reg m name) (l : Lookup) :
    select reg st ((Queryset.all m).filter (.test name l)) =
      .ok ((st.keys m).filter fun pk => l.holds (cell reg st m pk name)) :=
  select_passing fun pk _ => passes_test h l pk

/-- Of the rows that pass a test those are selected that do not pass the one that excludes. -/
theorem select_exclude {field : String} (hfield : Reads reg m field) (h : Reads reg m name) (asked l : Lookup) :
    select reg st (((Queryset.all m).filter (.test field asked)).exclude (.test name l)) =
      .ok ((st.keys m).filter fun pk => asked.holds (cell reg st m pk field) && !l.holds (cell reg st m pk name)) := by
  refine select_passing (m := m) (q := .all [.test field asked, .not (.test name l)]) fun pk _ => ?_
  rw [passes, Condition.holds, Condition.allHold, Condition.holds, hfield]
  cases ha : asked.holds (cell reg st m pk field) <;> cases hl : l.holds (cell reg st m pk name) <;>
    simp [Condition.allHold, Condition.holds, h st pk, ha, hl]

/-- Where the name of the primary key leads from each row to its key, the rows of some keys are those whose
keys are equal to one of them. -/
theorem select_keys (h : ∀ pk, pathValues reg st m pk m.pkName = .ok [pk]) (listed : List Value) :
    select reg st ((Queryset.all m).pkIn listed) = .ok ((st.keys m).filter (Lookup.oneOf listed).holds) := by
  refine select_passing fun pk _ => ?_
  have hvalues : columnValues reg st m (fun _ => none) pk (Queryset.all m).model.pkName = .ok [pk] := h pk
  rw [passes, Condition.holds, hvalues]
  simp

/-- A value passes for one of those listed if it is equal to one. -/
theorem holds_oneOf_iff {listed : List Value} {v : Value} :
    (Lookup.oneOf listed).holds v = true ↔ v.isNull = false ∧ ∃ w ∈ listed, v.numEq w = true := by
  have hholds : (Lookup.oneOf listed).holds v =
      if v.isNull then false else listed.any fun w => Lookup.ordered v w [.eq] := rfl
  have hordered : ∀ w, Lookup.ordered v w [.eq] = v.numEq w := by
    intro w
    rw [Lookup.ordered, Value.numEq]
    cases v.compare? w with
    | none => rfl
    | some o => cases o <;> rfl
  simp only [hholds, hordered]
  cases v.isNull <;> simp

theorem holds_oneOf_of_isPlain {listed : List Value} (hk : k ∈ listed) (hplain : k.isPlain) :
    (Lookup.oneOf listed).holds k = true :=
  holds_oneOf_iff.mpr
    ⟨Value.isNull_of_isPlain hplain, k, hk, (Value.numEq_iff_of_isPlain (.inr hplain) hplain).mpr rfl⟩

/-- A value passes for a plain one if it is equal to it. -/
theorem holds_exact {o : Value} (hplain : o.isPlain) (v : Value) : (Lookup.exact o).holds v = v.numEq o := by
  have hholds : (Lookup.exact o).holds v = if v.isNull then false else Lookup.ordered v o [.eq] := by
    cases o <;> first
      | exact absurd hplain Bool.false_ne_true
      | rfl
  rw [hholds]
  split
  · rename_i hnull
    rw [Value.isNull_iff.mp hnull]
    cases o <;> first
      | exact absurd hplain Bool.false_ne_true
      | rfl
  · rw [Lookup.ordered, Value.numEq]
    rcases v.compare? o with - | c
    · rfl
    · cases c <;> rfl

theorem holds_exact_of_isPlain (hplain : k.isPlain) : (Lookup.exact k).holds k = true := by
  rw [holds_exact hplain]
  exact (Value.numEq_iff_of_isPlain (.inr hplain) hplain).mpr rfl

theorem holds_exact_null {o : Value} (h : o.isNull = false) : (Lookup.exact o).holds .null = false := by
  cases o with
  | null => cases h
  | _ => rfl

/-- What is excluded because of the value of a column is not selected. -/
theorem not_mem_select_exclude {field : String} {asked l : Lookup} {pks : List Value} (h : Reads reg m name)
    (hholds : l.holds (cell reg st m k name) = true)
    (hselect : select reg st (((Queryset.all m).filter (.test field asked)).exclude (.test name l)) = .ok pks) :
    k ∉ pks := by
  intro hmem
  have hpasses : passes reg st m (fun _ => none) (some (.all [.test field asked, .not (.test name l)])) k =
      .ok true := passes_of_mem_selectKeys hselect hmem
  rw [passes, Condition.holds, Condition.allHold] at hpasses
  obtain ⟨b, _, hrest⟩ := Outcome.bind_eq_ok.mp hpasses
  cases b with
  | false => cases hrest
  | true =>
      rw [if_pos rfl, Condition.allHold, Condition.holds, Condition.holds, h] at hrest
      simp [hholds, Condition.allHold] at hrest

end RecordMapper.Store
