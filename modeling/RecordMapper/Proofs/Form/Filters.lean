import RecordMapper.Proofs.Form.Pages
import RecordMapper.Proofs.Form.Shares
import RecordMapper.Proofs.Store.Annotations
import RecordMapper.Proofs.Store.Sorted

/-!
# Filters — the order in which filters are declared does not matter

Each filter that is given asks a condition of the rows
(`FormFilter.Asks`), with the annotations of all filters and keys in
place. A form whose filters are declared in another order asks the same
conditions and annotates the same expressions, so it fails or selects
the same rows in the same order: those of the base that pass all that is
asked (`filtered_perm`).
-/

namespace RecordMapper

/-! ## What filters ask -/

/-- What a filter asks of a row for a value: the condition made from it, or else its test of a path or of the
expression that is annotated. -/
inductive FormFilter.Asks (f : FormFilter) (v : Value) : Condition → Prop
  | made {make : Value → Outcome Condition} {q : Condition} : f.condition = some make → make v = .ok q → Asks f v q
  | path {path : String} : f.condition = none → f.target = .path path → Asks f v (.test path (f.lookupOf v))
  | expression {e : Expression} : f.condition = none → f.target = .expression e →
      Asks f v (.test f.label (f.lookupOf v))

namespace FormFilter

variable {f : FormFilter} {v : Value} {q : Condition} {s : Share Condition} {input : Record}

theorem asks_of_mem_share (h : f.share v = .ok s) (hq : q ∈ s.parts) : f.Asks v q := by
  unfold share at h
  split at h
  · rename_i hmake
    split at h
    · rename_i hmade
      cases h
      obtain rfl := List.mem_singleton.mp hq
      exact .made hmake hmade
    · split at h
      · cases h
        cases hq
      · cases h
  · rename_i hnone
    split at h
    · rename_i htarget
      cases h
      obtain rfl := List.mem_singleton.mp hq
      exact .path hnone htarget
    · rename_i htarget
      cases h
      obtain rfl := List.mem_singleton.mp hq
      exact .expression hnone htarget

theorem mem_share_of_asks (h : f.share v = .ok s) (hq : f.Asks v q) : q ∈ s.parts := by
  unfold share at h
  cases hq with
  | made hmake hmade =>
      simp only [hmake, hmade] at h
      cases h
      exact List.mem_singleton_self _
  | path hnone htarget =>
      simp only [hnone, htarget] at h
      cases h
      exact List.mem_singleton_self _
  | expression hnone htarget =>
      simp only [hnone, htarget] at h
      cases h
      exact List.mem_singleton_self _

/-- A filter annotates under its label alone. -/
theorem annotations_share (h : f.share v = .ok s) : s.annotations = [] ∨
    ∃ e, f.condition = none ∧ f.target = .expression e ∧ s.annotations = [(f.label, e)] := by
  unfold share at h
  split at h
  · split at h
    · cases h
      exact .inl rfl
    · split at h
      · cases h
        exact .inl rfl
      · cases h
  · rename_i hnone
    split at h
    · cases h
      exact .inl rfl
    · rename_i e htarget
      cases h
      exact .inr ⟨e, hnone, htarget, rfl⟩

theorem names_shareOf (h : f.shareOf input = .ok s) : (s.annotations.map Prod.fst).Sublist [f.label] := by
  unfold shareOf at h
  split at h
  · rcases annotations_share h with hs | ⟨e, -, -, hs⟩
    · simp [hs]
    · simp [hs]
  · cases h
    exact List.nil_sublist _

end FormFilter

namespace BoundForm

variable {reg : Registry} {st : Store} {b : BoundForm} {base qs : Queryset} {filters : List FormFilter}
  {shares : List (Share Condition)}

/-- What one of the filters asks for the input. -/
def Asks (b : BoundForm) (q : Condition) : Prop :=
  ∃ f ∈ b.form.filters, ∃ v, QueryForm.given? b.input f.name = some v ∧ f.Asks v q

/-- A filter whose input is left out, or whose condition cannot be made and may be left out. -/
def LeavesOut (b : BoundForm) (f : FormFilter) : Prop :=
  QueryForm.given? b.input f.name = none ∨
    f.silent ∧ ∃ v make e, QueryForm.given? b.input f.name = some v ∧ f.condition = some make ∧ make v = .error e

/-- The bound form with other filters. -/
def withFilters (b : BoundForm) (filters : List FormFilter) : BoundForm :=
  { b with form := { b.form with filters := filters } }

theorem mem_parts_iff (h : b.filterShares = .ok shares) (q : Condition) :
    q ∈ shares.flatMap (·.parts) ↔ b.Asks q := by
  rw [List.mem_flatMap]
  constructor
  · rintro ⟨s, hs, hq⟩
    obtain ⟨f, hf, hshare⟩ := Outcome.mapM_mem h hs
    unfold FormFilter.shareOf at hshare
    split at hshare
    · rename_i v hv
      exact ⟨f, hf, v, hv, FormFilter.asks_of_mem_share hshare hq⟩
    · cases hshare
      cases hq
  · rintro ⟨f, hf, v, hv, hasks⟩
    obtain ⟨s, hs, hshare⟩ := Outcome.exists_of_mapM h hf
    rw [FormFilter.shareOf, hv] at hshare
    exact ⟨s, hs, FormFilter.mem_share_of_asks hshare hasks⟩

/-- No two filters annotate under one name. -/
theorem nodup_names_filterShares (hcheck : b.form.check reg = .ok ()) (h : b.filterShares = .ok shares) :
    ((shares.flatMap (·.annotations)).map Prod.fst).Nodup := by
  have hsublist : ((shares.flatMap (·.annotations)).map Prod.fst).Sublist (b.form.filters.map (·.label)) := by
    rw [filterShares, Outcome.mapM_eq_ok] at h
    generalize b.form.filters = filters at h
    induction h with
    | nil => exact .slnil
    | @cons f s _ _ hshare _ ih =>
        rw [List.flatMap_cons, List.map_append, List.map_cons]
        exact (FormFilter.names_shareOf hshare).append ih
  refine hsublist.nodup ?_
  have hnames : (b.form.filters.map (·.name)).Nodup :=
    (List.nodup_append.mp (List.nodup_append.mp (QueryForm.nodup_inputNames hcheck)).1).1
  have hlabels : b.form.filters.map (·.label) = (b.form.filters.map (·.name)).map ("__filter_" ++ ·) := by
    rw [List.map_map]
    rfl
  rw [hlabels]
  exact hnames.map fun _ _ h => (String.append_right_inj _).mp h

/-- Filters declared in another order add the same, in another order. -/
theorem filterShares_perm (hperm : filters.Perm b.form.filters) (h : b.filterShares = .ok shares) :
    ∃ shares', (b.withFilters filters).filterShares = .ok shares' ∧ shares'.Perm shares := by
  obtain ⟨shares', hshares', hp⟩ := Outcome.mapM_perm hperm.symm h
  exact ⟨shares', hshares', hp.symm⟩

theorem filterShares_error (hperm : filters.Perm b.form.filters) {e : Failure} (h : b.filterShares = .error e) :
    ∃ e', (b.withFilters filters).filterShares = .error e' := by
  cases hother : (b.withFilters filters).filterShares with
  | error e' => exact ⟨e', rfl⟩
  | ok shares =>
      obtain ⟨shares', hshares', -⟩ := Outcome.mapM_perm hperm hother
      cases h.symm.trans hshares'

/-- The filter that is left out might as well not be declared. -/
theorem filtered_of_leavesOut {keep : FormFilter → Bool} (h : ∀ f ∈ b.form.filters, keep f = false → b.LeavesOut f)
    (base : Queryset) : (b.withFilters (b.form.filters.filter keep)).filtered reg base = b.filtered reg base := by
  have hstep : ∀ f ∈ b.form.filters, ∀ qs, (if keep f then b.takeIn qs f else pure qs) = b.takeIn qs f := by
    intro f hf qs
    split
    · rfl
    · rename_i hkeep
      unfold takeIn FormFilter.apply
      rcases h f hf (Bool.eq_false_iff.mpr hkeep) with hnone | ⟨hsilent, v, make, e, hv, hmake, hfails⟩
      · rw [hnone]
        rfl
      · rw [hv]
        simp [hmake, hfails, hsilent]
  have hfilters : (b.form.filters.filter keep).foldlM b.takeIn base = b.form.filters.foldlM b.takeIn base :=
    List.foldlM_filter.trans (Outcome.foldlM_congr hstep base)
  rw [filtered_def, filtered_def]
  exact congrArg (· >>= _) hfilters

/-- The label of a filter is none of those of keys. -/
theorem label_ne (f : FormFilter) (key : String) : f.label ≠ FormOrder.label key := by
  intro h
  have hchars := congrArg String.toList h
  simp [FormFilter.label, FormOrder.label] at hchars

/-- The expression of a filter that is given is annotated under its label. -/
theorem lookup_label (hcheck : b.form.check reg = .ok ()) {keys : List (Share OrderTerm)}
    (hshares : b.filterShares = .ok shares) (hkeys : b.keyShares reg = .ok keys) {f : FormFilter}
    (hf : f ∈ b.form.filters) (hgiven : (QueryForm.given? b.input f.name).isSome) (hnone : f.condition = none)
    {e : Expression} (htarget : f.target = .expression e) :
    (base.assembled shares keys).annotations.lookup f.label = some e := by
  have hkeyNames : f.label ∉ (keys.flatMap (·.annotations)).reverse.map Prod.fst := by
    rw [List.map_reverse, List.mem_reverse, List.map_flatMap, List.mem_flatMap]
    rintro ⟨s, hs, hname⟩
    obtain ⟨k, _, hshare⟩ := Outcome.mapM_mem hkeys hs
    obtain ⟨key, hkey⟩ := FormOrder.names_share hshare f.label hname
    exact label_ne f key hkey
  have hnodup : ((shares.flatMap (·.annotations)).reverse.map Prod.fst).Nodup := by
    rw [List.map_reverse, List.nodup_reverse]
    exact nodup_names_filterShares hcheck hshares
  have hmem : (f.label, e) ∈ (shares.flatMap (·.annotations)).reverse := by
    rw [List.mem_reverse, List.mem_flatMap]
    obtain ⟨s, hs, hshare⟩ := Outcome.exists_of_mapM hshares hf
    obtain ⟨v, hv⟩ := Option.isSome_iff_exists.mp hgiven
    refine ⟨s, hs, ?_⟩
    simp only [FormFilter.shareOf, hv, FormFilter.share, hnone, htarget] at hshare
    cases hshare
    exact List.mem_singleton_self _
  rw [Queryset.lookup_assembled, lookup_eq_none_iff_not_mem_keys.mpr hkeyNames,
    (lookup_eq_some_iff_mem hnodup).mpr hmem]
  rfl

/-! ## The rows that pass -/

/-- Every condition that is asked can be told on every row. -/
def Tells (reg : Registry) (st : Store) (b : BoundForm) (qs : Queryset) : Prop :=
  ∀ pk ∈ st.keys qs.model, ∀ q, b.Asks q →
    ∃ holds, q.holds (Store.columnValues reg st qs.model (Expression.annotationsOf reg st qs) pk) = .ok holds

/-- A row passes what the base asks of it and all that the filters ask. -/
theorem passes_assembled (base : Queryset) (hshares : b.filterShares = .ok shares)
    (htells : b.Tells reg st qs) {pk : Value} (hpk : pk ∈ st.keys qs.model)
    {passing : Bool} (hpassing : passing ↔ ∀ q, b.Asks q →
      q.holds (Store.columnValues reg st qs.model (Expression.annotationsOf reg st qs) pk) = .ok true)
    {shares' : List (Share Condition)} (hperm : shares'.Perm shares) :
    Store.passes reg st qs.model (Expression.annotationsOf reg st qs)
        (base.narrowed (shares'.flatMap (·.parts))).condition pk =
      (do if ← Store.passes reg st qs.model (Expression.annotationsOf reg st qs) base.condition pk
        then return passing else return false) := by
  have hasked : ∀ q, q ∈ shares'.flatMap (·.parts) ↔ b.Asks q := fun q => by
    rw [(hperm.flatMap_right _).mem_iff, mem_parts_iff hshares]
  have hall : Condition.allHold (Store.columnValues reg st qs.model (Expression.annotationsOf reg st qs) pk)
      (shares'.flatMap (·.parts)) = .ok passing :=
    Condition.allHold_eq_ok (fun q hq => htells pk hpk q ((hasked q).mp hq))
      (hpassing.trans (forall_congr' fun q => by rw [hasked]))
  rw [Store.passes_narrowed, hall]
  rfl

section Rows

variable {keys : List (Share OrderTerm)} {shares' : List (Share Condition)} {holds passing : Value → Bool}

/-- The order of the shares does not matter to the names. -/
theorem annotationsOf_perm (hcheck : b.form.check reg = .ok ()) (hshares : b.filterShares = .ok shares)
    (hperm : shares'.Perm shares) : Expression.annotationsOf reg st (base.assembled shares' keys) =
      Expression.annotationsOf reg st (base.assembled shares keys) := by
  refine Expression.annotationsOf_congr (by simp) fun name => ?_
  have hnodup : ((shares.flatMap (·.annotations)).reverse.map Prod.fst).Nodup := by
    rw [List.map_reverse, List.nodup_reverse]
    exact nodup_names_filterShares hcheck hshares
  have hentries : (shares'.flatMap (·.annotations)).reverse.Perm (shares.flatMap (·.annotations)).reverse :=
    (List.reverse_perm _).trans ((hperm.flatMap_right _).trans (List.reverse_perm _).symm)
  rw [Queryset.lookup_assembled, Queryset.lookup_assembled, lookup_eq_of_perm hnodup hentries]

theorem select_perm (hcheck : b.form.check reg = .ok ()) (hshares : b.filterShares = .ok shares)
    (hperm : shares'.Perm shares) (htells : b.Tells reg st (base.assembled shares keys)) :
    Store.select reg st (base.assembled shares' keys) = Store.select reg st (base.assembled shares keys) := by
  classical
  refine Store.select_congr (by simp) (by simp [Queryset.isNone]) ?_ (by simp) (by simp)
    (annotationsOf_perm hcheck hshares hperm) fun pk hpk => ?_
  · rw [Queryset.assembled_ordering, Queryset.assembled_ordering]
  · have hpassing := (decide_eq_true_iff (p := ∀ q, b.Asks q → q.holds (Store.columnValues reg st
      (base.assembled shares keys).model (Expression.annotationsOf reg st (base.assembled shares keys)) pk) = .ok true))
    rw [Queryset.assembled_condition, Queryset.assembled_condition,
      passes_assembled base hshares htells hpk hpassing hperm, passes_assembled base hshares htells hpk hpassing (.refl _)]

/-- The rows that pass what the base asks and all that the filters ask are selected. -/
theorem select_passing (hshares : b.filterShares = .ok shares) (hqs : qs = base.assembled shares keys)
    (hsliced : base.isSliced = false) (hnone : base.none = false) (htells : b.Tells reg st qs)
    (hpassing : ∀ pk ∈ st.keys qs.model, passing pk ↔ ∀ q, b.Asks q →
      q.holds (Store.columnValues reg st qs.model (Expression.annotationsOf reg st qs) pk) = .ok true)
    (hordering : ∀ pk ∈ st.keys qs.model, ∀ t ∈ qs.ordering, ∃ v,
      t.expr.eval reg st qs.model (Expression.annotationsOf reg st qs) pk = .ok v)
    (hholds : ∀ pk ∈ st.keys qs.model,
      Store.passes reg st qs.model (Expression.annotationsOf reg st qs) base.condition pk = .ok (holds pk)) :
    ∃ rows, Store.select reg st qs = .ok rows ∧
      rows.Perm ((st.keys qs.model).filter fun pk => holds pk && passing pk) := by
  have hcondition : ∀ pk ∈ st.keys qs.model,
      Store.passes reg st qs.model (Expression.annotationsOf reg st qs) qs.condition pk =
        .ok (holds pk && passing pk) := by
    intro pk hpk
    have hpasses := passes_assembled base hshares htells hpk (hpassing pk hpk) (.refl _)
    have hnarrowed : qs.condition = (base.narrowed (shares.flatMap (·.parts))).condition := by
      rw [hqs, Queryset.assembled_condition]
    rw [hnarrowed, hpasses, hholds pk hpk]
    cases holds pk <;> rfl
  have hvalues : ∀ pk ∈ st.keys qs.model, ∃ values, (qs.ordering.mapM fun t =>
      t.expr.eval reg st qs.model (Expression.annotationsOf reg st qs) pk) = .ok values := fun pk hpk => by
    obtain ⟨values, hvalues, -⟩ := Outcome.exists_mapM (P := fun _ _ => True) fun t ht => by
      obtain ⟨v, hv⟩ := hordering pk hpk t ht
      exact ⟨v, hv, trivial⟩
    exact ⟨values, hvalues⟩
  choose! values hvalues using hvalues
  have hselect := Store.select_eq_window (by rw [hqs, Queryset.assembled_none, hnone]) hcondition
    fun pk hpk _ => hvalues pk hpk
  obtain ⟨hoffset, hlimit⟩ : qs.offset = 0 ∧ qs.limit = none := by
    rw [hqs, Queryset.assembled_offset, Queryset.assembled_limit]
    exact Queryset.isSliced_eq_false.mp hsliced
  rw [hoffset, hlimit] at hselect
  exact ⟨_, hselect, stableSort_perm _ _⟩

/-- The rows of the base pass its condition also while names are annotated that the condition does not ask for. -/
theorem rows_of_base {baseRows : List Value} (hsliced : base.isSliced = false) (hnone : base.none = false)
    (hannotations : base.annotations = []) (hmodel : qs.model = base.model)
    (hnames : ∀ p ∈ Expression.filterPaths base.condition, p ∉ qs.annotations.map Prod.fst)
    (h : Store.select reg st base.unordered = .ok baseRows) :
    ∃ holds : Value → Bool, (∀ pk ∈ st.keys qs.model,
      Store.passes reg st qs.model (Expression.annotationsOf reg st qs) base.condition pk = .ok (holds pk)) ∧
        baseRows = (st.keys qs.model).filter holds := by
  rw [hmodel]
  obtain ⟨m, condition, annotations, ordering, offset, limit, nothing, database⟩ := base
  obtain ⟨rfl, rfl⟩ : offset = 0 ∧ limit = none := Queryset.isSliced_eq_false.mp hsliced
  obtain rfl : annotations = [] := hannotations
  obtain rfl : nothing = false := hnone
  rw [Store.select_eq, if_neg (by simp [Queryset.isNone, Queryset.unordered]), Store.selectKeys_unlinked] at h
  obtain ⟨selected, hselected, h⟩ := Outcome.bind_eq_ok.mp h
  obtain rfl : selected = baseRows := Except.ok.inj h
  obtain ⟨htold, hkept⟩ := Outcome.filterM_eq_ok hselected
  have hpasses : ∀ pk, Store.passes reg st m (Expression.annotationsOf reg st qs) condition pk =
      Store.passes reg st m (fun _ => none) condition pk := by
    intro pk
    cases condition with
    | none => rfl
    | some q =>
        exact Condition.holds_congr fun p hp =>
          Store.columnValues_congr (Expression.annotationsOf_eq_none (hnames p hp)) pk
  refine ⟨_, fun pk hpk => ?_, hkept⟩
  obtain ⟨holds, hholds⟩ := htold pk hpk
  refine ((hpasses pk).trans hholds).trans ?_
  rw [hholds]
  cases holds <;> rfl

end Rows

/-- Declared in another order, filters fail or select the same rows in the same order: those that pass what the base
asks and all that the filters ask, with the expressions of all filters and keys in place. Filters that are
left out might as well not be declared. -/
theorem filtered_perm (hcheck : b.form.check reg = .ok ()) (hperm : filters.Perm b.form.filters)
    (hsliced : base.isSliced = false) (hannotations : base.annotations = []) :
    ((∃ e e', b.filtered reg base = .error e ∧ (b.withFilters filters).filtered reg base = .error e') ∨
      ∃ qs qs', b.filtered reg base = .ok qs ∧ (b.withFilters filters).filtered reg base = .ok qs' ∧
        (∀ f ∈ b.form.filters, (QueryForm.given? b.input f.name).isSome → f.condition = none →
          ∀ e, f.target = .expression e → qs.annotations.lookup f.label = some e) ∧
        ∀ st, b.Tells reg st qs → Store.select reg st qs' = Store.select reg st qs ∧
          ∀ passing : Value → Bool, (∀ pk ∈ st.keys qs.model, passing pk ↔ ∀ q, b.Asks q →
              q.holds (Store.columnValues reg st qs.model (Expression.annotationsOf reg st qs) pk) = .ok true) →
            (∀ pk ∈ st.keys qs.model, ∀ t ∈ qs.ordering, ∃ v,
              t.expr.eval reg st qs.model (Expression.annotationsOf reg st qs) pk = .ok v) →
            (∀ holds : Value → Bool, base.none = false → (∀ pk ∈ st.keys qs.model,
                Store.passes reg st qs.model (Expression.annotationsOf reg st qs) base.condition pk =
                  .ok (holds pk)) →
              ∃ rows, Store.select reg st qs = .ok rows ∧
                rows.Perm ((st.keys qs.model).filter fun pk => holds pk && passing pk)) ∧
            ∀ baseRows, (∀ p ∈ Expression.filterPaths base.condition, p ∉ qs.annotations.map Prod.fst) →
              Store.select reg st base.unordered = .ok baseRows →
              ∃ rows, Store.select reg st qs = .ok rows ∧ rows.Perm (baseRows.filter passing)) ∧
    ∀ keep : FormFilter → Bool, (∀ f ∈ b.form.filters, keep f = false → b.LeavesOut f) →
      (b.withFilters (b.form.filters.filter keep)).filtered reg base = b.filtered reg base := by
  refine ⟨?_, fun keep hkeep => filtered_of_leavesOut hkeep base⟩
  cases hshares : b.filterShares with
  | error e =>
      obtain ⟨e', hshares'⟩ := filterShares_error hperm hshares
      exact .inl ⟨e, e', by rw [filtered_eq, hshares]; rfl, by rw [filtered_eq, hshares']; rfl⟩
  | ok shares =>
      obtain ⟨shares', hshares', hsharesPerm⟩ := filterShares_perm hperm hshares
      cases hkeys : b.keyShares reg with
      | error e =>
          have hkeys' : (b.withFilters filters).keyShares reg = .error e := hkeys
          exact .inl ⟨e, e, by rw [filtered_eq, hshares, hkeys]; rfl, by rw [filtered_eq, hshares', hkeys']; rfl⟩
      | ok keys =>
          refine .inr ⟨_, _, filtered_eq_ok.mpr ⟨shares, keys, hshares, hkeys, rfl⟩,
            filtered_eq_ok.mpr ⟨shares', keys, hshares', hkeys, rfl⟩,
            fun f hf hgiven hnone e htarget => lookup_label hcheck hshares hkeys hf hgiven hnone htarget,
            fun st htells => ⟨select_perm hcheck hshares hsharesPerm htells,
              fun passing hpassing hordering => ⟨fun holds hnone hholds => ?_, fun baseRows hnames hbase => ?_⟩⟩⟩
          · exact select_passing hshares rfl hsliced hnone htells hpassing hordering hholds
          · cases hnone : base.none with
            | true =>
                have hisNone : base.unordered.isNone ∧ (base.assembled shares keys).isNone := by
                  simp [Queryset.isNone, Queryset.unordered, hnone]
                rw [Store.select_of_isNone hisNone.1] at hbase
                cases hbase
                exact ⟨[], Store.select_of_isNone hisNone.2, .refl _⟩
            | false =>
                obtain ⟨holds, hholds, rfl⟩ := rows_of_base hsliced hnone hannotations (Queryset.assembled_model ..)
                  hnames hbase
                obtain ⟨rows, hrows, hrowsPerm⟩ :=
                  select_passing hshares rfl hsliced hnone htells hpassing hordering hholds
                refine ⟨rows, hrows, ?_⟩
                rw [List.filter_filter]
                simpa only [Bool.and_comm] using hrowsPerm

end BoundForm

/-! ## Articles of some length -/

namespace QueryForm

open Registry

/-- Articles of at least so many words, of which twice is less than something. -/
def sizedArticles : QueryForm where
  model := article
  filters :=
    [{ name := "least", target := .path "words", test := some .gte },
      { name := "double", target := .expression (.arith .add (.column "words") (.column "words")), test := some .lt }]
  orders := [{ name := "by", defaults := ["words"] }]

/-- The form bound to 100 words and less than twice 450. -/
def boundToSize : BoundForm := ⟨sizedArticles, [("least", .int 100), ("double", .int 900)], none⟩

theorem tells_boundToSize {qs : Queryset} (hqs : boundToSize.filtered (built writers) (Queryset.all article) = .ok qs) :
    boundToSize.Tells (built writers) writings qs := by
  obtain ⟨shares, keys, hshares, hkeys, rfl⟩ := BoundForm.filtered_eq_ok.mp hqs
  cases hkeys
  intro pk hpk q hq
  rw [← BoundForm.mem_parts_iff hshares] at hq
  cases hshares
  have hmem : pk ∈ [Value.int 1, .int 2, .int 3] := hpk
  have hasked : q ∈ [Condition.test "words" (.gte (.int 100)), .test "__filter_double" (.lt (.int 900))] := hq
  simp only [List.mem_cons, List.not_mem_nil, or_false] at hmem hasked
  rcases hmem with rfl | rfl | rfl <;> rcases hasked with rfl | rfl <;> exact ⟨_, rfl⟩

theorem filtered_boundToSize :
    sizedArticles.check (built writers) = .ok () ∧ sizedArticles.filters.reverse.Perm sizedArticles.filters ∧
      (Queryset.all article).isSliced = false ∧ (Queryset.all article).annotations = [] ∧
      ∃ qs qs', boundToSize.filtered (built writers) (Queryset.all article) = .ok qs ∧
        (boundToSize.withFilters sizedArticles.filters.reverse).filtered (built writers) (Queryset.all article) =
          .ok qs' ∧
        Store.select (built writers) writings qs = .ok [.int 1] ∧
        Store.select (built writers) writings qs' = .ok [.int 1] := by
  have hcheck : sizedArticles.check (built writers) = .ok () := rfl
  have hperm : sizedArticles.filters.reverse.Perm sizedArticles.filters := List.reverse_perm _
  have hsliced : (Queryset.all article).isSliced = false := rfl
  have hannotations : (Queryset.all article).annotations = [] := rfl
  refine ⟨hcheck, hperm, hsliced, hannotations, ?_⟩
  rcases (BoundForm.filtered_perm (b := boundToSize) hcheck hperm hsliced hannotations).1 with
    ⟨e, _, he, -⟩ | ⟨qs, qs', hqs, hqs', -, hrows⟩
  · cases he
  · have hselect : Store.select (built writers) writings qs = .ok [.int 1] := by
      cases hqs
      rfl
    exact ⟨qs, qs', hqs, hqs', hselect, (hrows writings (tells_boundToSize hqs)).1.trans hselect⟩

/-! ### A column of the name of a label -/

/-- Articles with a column of the name that a filter annotates under. -/
def labelledArticles : List ModelDecl :=
  [{ name := "article", fields := [.autoKey "id", .of "__filter_size" .integer, .of "words" .integer] }]

def labelledRows : Store :=
  ⟨[("article", tableOf
    [(1, [("__filter_size", .int 1), ("words", .int 10)]), (2, [("__filter_size", .int 2), ("words", .int 10)])])]⟩

/-- Articles of at least so many words. -/
def bySize : QueryForm where
  model := modelOf (built labelledArticles) "article"
  filters := [{ name := "size", target := .expression (.column "words"), test := some .gte }]
  orders := []

/-- Articles of size one. -/
def ofSizeOne : Queryset :=
  (Queryset.all (modelOf (built labelledArticles) "article")).filter (.test "__filter_size" (.exact (.int 1)))

/-- An annotation hides the column of its name from the condition of the base. -/
theorem label_hides_column :
    Registry.build labelledArticles = .ok (built labelledArticles) ∧
      bySize.check (built labelledArticles) = .ok () ∧ ofSizeOne.isSliced = false ∧ ofSizeOne.annotations = [] ∧
      ∃ qs, (⟨bySize, [("size", .int 5)], none⟩ : BoundForm).filtered (built labelledArticles) ofSizeOne = .ok qs ∧
        Store.select (built labelledArticles) labelledRows ofSizeOne = .ok [.int 1] ∧
        (Condition.test "__filter_size" (.gte (.int 5))).holds (Store.columnValues (built labelledArticles) labelledRows
          qs.model (Expression.annotationsOf (built labelledArticles) labelledRows qs) (.int 1)) = .ok true ∧
        Store.select (built labelledArticles) labelledRows qs = .ok [] :=
  ⟨rfl, rfl, rfl, rfl, _, rfl, rfl, rfl, rfl⟩

end QueryForm

end RecordMapper
