import RecordMapper.Form.Basic
import RecordMapper.Proofs.Entries
import RecordMapper.Proofs.Outcomes
import RecordMapper.Proofs.Store.Selection

/-!
# Shares — what each input adds to a queryset

A filter that is given adds a condition, a key that is asked for adds a
term of the order by what it stands for (`FormOrder.StandsFor`), and
either may add an annotation beside it (`Share`).
What an input adds depends on nothing that other inputs have added, so
the filtered queryset is the base with all shares put together
(`BoundForm.filtered_eq`). It fails where one of the inputs does.
-/

namespace RecordMapper

/-- What an input adds: expressions under the names they are annotated by, and conditions or terms. -/
structure Share (α : Type) where
  annotations : List (String × Expression) := []
  parts : List α := []

/-! ## The share of a filter -/

namespace FormFilter

/-- What a filter adds for a value. -/
def share (f : FormFilter) (v : Value) : Outcome (Share Condition) :=
  match f.condition with
  | some make =>
    match make v with
    | .ok q => .ok { parts := [q] }
    | .error e => if f.silent then .ok {} else .error e
  | none =>
    match f.target with
    | .path path => .ok { parts := [.test path (f.lookupOf v)] }
    | .expression e => .ok { annotations := [(f.label, e)], parts := [.test f.label (f.lookupOf v)] }

/-- What a filter adds for an input; nothing if it is left out. -/
def shareOf (input : Record) (f : FormFilter) : Outcome (Share Condition) :=
  match QueryForm.given? input f.name with
  | some v => f.share v
  | none => .ok {}

end FormFilter

namespace Queryset

/-- The rows that pass all of several conditions besides. -/
def narrowed (qs : Queryset) (predicates : List Condition) : Queryset := predicates.foldl filter qs

/-- The rows with several named expressions beside their columns. -/
def annotated (qs : Queryset) (annotations : List (String × Expression)) : Queryset :=
  { qs with annotations := annotations.foldl (fun entries e => insertEntry entries e.1 e.2) qs.annotations }

@[simp] theorem annotated_nil (qs : Queryset) : qs.annotated [] = qs := by
  cases qs
  rfl

end Queryset

theorem FormFilter.apply_eq (f : FormFilter) (qs : Queryset) (v : Value) :
    f.apply qs v = (f.share v).map fun s => (qs.annotated s.annotations).narrowed s.parts := by
  unfold apply share
  cases f.condition with
  | some make =>
      simp only
      cases make v with
      | ok q => rfl
      | error e =>
          cases f.silent with
          | true => simp [Queryset.narrowed]
          | false => rfl
  | none => cases f.target <;> rfl

/-! ## What keys stand for -/

/-- What a key of an order stands for: what is declared for it or else resolved, or the path of its own name where
nothing is declared and nothing resolves keys. -/
inductive FormOrder.StandsFor (reg : Registry) (m : Model) (o : FormOrder) (key : String) : FormTarget → Prop
  | declared {target : FormTarget} : o.keys.lookup key = some target → StandsFor reg m o key target
  | resolved {resolve : String → Outcome (Option Expression)} {e : Expression} : o.keys.lookup key = none →
      o.resolver = some resolve → resolve key = .ok (some e) → StandsFor reg m o key (.expression e)
  | itself {p : ResolvedPath} : o.keys = [] → o.resolver = none → reg.resolvePath m key = .ok p → p.isSingle →
      StandsFor reg m o key (.path key)

namespace FormOrder

variable {reg : Registry} {m : Model} {o : FormOrder} {key : String} {target : FormTarget}

/-- What sorts by a target. -/
def Meaning.ofTarget : FormTarget → Meaning
  | .path p => .path p
  | .expression e => .expression e

theorem meaning_of_standsFor (h : o.StandsFor reg m key target) : o.meaning reg m key = .ok (.ofTarget target) := by
  unfold meaning
  cases h with
  | declared hkey =>
      rw [hkey]
      cases target <;> rfl
  | resolved hkey hresolver hresolve => simp only [hkey, hresolver, hresolve, Meaning.ofTarget]
  | itself hkeys hresolver hpath hsingle => simp [hkeys, hresolver, hpath, hsingle, Meaning.ofTarget]

theorem standsFor_of_meaning (h : o.meaning reg m key = .ok (.ofTarget target)) : o.StandsFor reg m key target := by
  unfold meaning at h
  split at h
  · rename_i hkey
    cases target <;> cases h
    exact .declared hkey
  · rename_i hkey
    cases target <;> cases h
    exact .declared hkey
  · rename_i hkey
    split at h
    · rename_i resolve hresolver
      split at h
      · rename_i e hresolve
        cases target <;> cases h
        exact .resolved hkey hresolver hresolve
      · cases target <;> cases h
      · split at h <;> cases target <;> cases h
    · rename_i hresolver
      split at h
      · rename_i hkeys
        split at h
        · rename_i p hpath
          split at h
          · rename_i hsingle
            cases target <;> cases h
            exact .itself (List.isEmpty_iff.mp hkeys) hresolver hpath hsingle
          · cases target <;> cases h
        · cases target <;> cases h
      · cases target <;> cases h

end FormOrder

/-! ## The share of a key -/

namespace FormOrder

/-- What a key adds. -/
def share (reg : Registry) (m : Model) (o : FormOrder) (formMark raw : String) : Outcome (Share OrderTerm) := do
  let (key, descending) := unmarked (o.mark.getD formMark) raw
  match ← o.meaning reg m key with
  | .path path => return { parts := [o.term key descending (.column path)] }
  | .expression e =>
    return { annotations := [(label key, e)], parts := [o.term key descending (.column (label key))] }
  | .passedOver => return {}
  | .unknown =>
    if o.ignoresUnknown then return {}
    else throw (.faultyInput o.name ("unknown order key '" ++ key ++ "'") "invalid_order")

theorem addKey_eq (reg : Registry) (m : Model) (o : FormOrder) (formMark : String)
    (acc : Queryset × List OrderTerm) (raw : String) : o.addKey reg m formMark acc raw =
      (o.share reg m formMark raw).map fun s => (acc.1.annotated s.annotations, acc.2 ++ s.parts) := by
  unfold addKey share
  obtain ⟨key, descending⟩ := unmarked (o.mark.getD formMark) raw
  simp only
  cases o.meaning reg m key with
  | error e => rfl
  | ok meaning =>
      cases meaning with
      | path path => simp
      | expression e => rfl
      | passedOver => simp
      | unknown =>
          cases o.ignoresUnknown with
          | true => simp
          | false => rfl

end FormOrder

/-! ## All shares together -/

namespace Queryset

variable {qs : Queryset}

/-- The rows in the order of some terms; in the order they were in if there are none. -/
def ordered (qs : Queryset) (terms : List OrderTerm) : Queryset := if terms.isEmpty then qs else qs.orderBy terms

/-- A queryset with what filters and keys add to it. -/
def assembled (base : Queryset) (filters : List (Share Condition)) (keys : List (Share OrderTerm)) : Queryset :=
  (((base.annotated (filters.flatMap (·.annotations))).narrowed (filters.flatMap (·.parts))).annotated
    (keys.flatMap (·.annotations))).ordered (keys.flatMap (·.parts))

theorem annotated_append (annotations more : List (String × Expression)) :
    qs.annotated (annotations ++ more) = (qs.annotated annotations).annotated more := by
  simp only [annotated, List.foldl_append]

theorem annotated_narrowed (annotations : List (String × Expression)) (predicates : List Condition) :
    (qs.narrowed predicates).annotated annotations = (qs.annotated annotations).narrowed predicates := by
  induction predicates generalizing qs with
  | nil => rfl
  | cons q rest ih => exact ih

theorem narrowed_append (predicates more : List Condition) :
    qs.narrowed (predicates ++ more) = (qs.narrowed predicates).narrowed more := List.foldl_append

/-- Conditions besides change the condition alone. -/
theorem narrowed_eq (predicates : List Condition) :
    qs.narrowed predicates = { qs with condition := (qs.narrowed predicates).condition } := by
  induction predicates generalizing qs with
  | nil =>
      cases qs
      rfl
  | cons q rest ih => exact ih

/-- Filters add conditions, keys give the order, and both annotate. -/
theorem assembled_eq (base : Queryset) (filters : List (Share Condition)) (keys : List (Share OrderTerm)) :
    base.assembled filters keys = { base with
      condition := (base.narrowed (filters.flatMap (·.parts))).condition
      annotations := (filters.flatMap (·.annotations) ++ keys.flatMap (·.annotations)).foldl
        (fun entries e => insertEntry entries e.1 e.2) base.annotations
      ordering := if (keys.flatMap (·.parts)).isEmpty then base.ordering else keys.flatMap (·.parts) } := by
  rw [assembled, ← annotated_narrowed, narrowed_eq, ordered, List.foldl_append]
  split
  · rfl
  · rfl

section Fields

variable (base : Queryset) (filters : List (Share Condition)) (keys : List (Share OrderTerm))

@[simp] theorem assembled_model : (base.assembled filters keys).model = base.model := by rw [assembled_eq]

@[simp] theorem assembled_none : (base.assembled filters keys).none = base.none := by rw [assembled_eq]

@[simp] theorem assembled_offset : (base.assembled filters keys).offset = base.offset := by rw [assembled_eq]

@[simp] theorem assembled_limit : (base.assembled filters keys).limit = base.limit := by rw [assembled_eq]

theorem assembled_condition : (base.assembled filters keys).condition =
    (base.narrowed (filters.flatMap (·.parts))).condition := by rw [assembled_eq]

theorem assembled_ordering : (base.assembled filters keys).ordering =
    if (keys.flatMap (·.parts)).isEmpty then base.ordering else keys.flatMap (·.parts) := by rw [assembled_eq]

/-- Of the expressions that are annotated under one name the last counts, and those of keys come last. -/
theorem lookup_assembled (name : String) : (base.assembled filters keys).annotations.lookup name =
    (((keys.flatMap (·.annotations)).reverse.lookup name).or ((filters.flatMap (·.annotations)).reverse.lookup name)).or
      (base.annotations.lookup name) := by
  rw [assembled_eq, lookup_foldl_insertEntry, List.reverse_append, List.lookup_append]

end Fields

/-- Shares of filters put in one by one are put in together. -/
theorem foldl_shares (shares : List (Share Condition)) :
    shares.foldl (fun qs s => (qs.annotated s.annotations).narrowed s.parts) qs =
      (qs.annotated (shares.flatMap (·.annotations))).narrowed (shares.flatMap (·.parts)) := by
  induction shares generalizing qs with
  | nil => simp [narrowed]
  | cons s rest ih =>
      rw [List.foldl_cons, ih, List.flatMap_cons, List.flatMap_cons, annotated_append, narrowed_append,
        annotated_narrowed]

/-- Shares of keys put in one by one are put in together. -/
theorem foldl_keyShares (shares : List (Share OrderTerm)) (terms : List OrderTerm) :
    shares.foldl (fun acc s => (acc.1.annotated s.annotations, acc.2 ++ s.parts)) (qs, terms) =
      (qs.annotated (shares.flatMap (·.annotations)), terms ++ shares.flatMap (·.parts)) := by
  induction shares generalizing qs terms with
  | nil => simp
  | cons s rest ih =>
      rw [List.foldl_cons, ih, List.flatMap_cons, List.flatMap_cons, annotated_append, List.append_assoc]

end Queryset

/-- A row passes the conditions besides after the one that it had to pass before. -/
theorem Store.passes_narrowed {reg : Registry} {st : Store} {m : Model} {named : Named} (qs : Queryset)
    (predicates : List Condition) (pk : Value) : passes reg st m named (qs.narrowed predicates).condition pk =
      (do if ← passes reg st m named qs.condition pk
        then Condition.allHold (columnValues reg st m named pk) predicates else return false) := by
  induction predicates generalizing qs with
  | nil =>
      show passes reg st m named qs.condition pk = _
      rcases passes reg st m named qs.condition pk with e | b
      · rfl
      · cases b <;> rfl
  | cons q rest ih =>
      refine (ih (qs.filter q)).trans ?_
      rw [passes_filter]
      rcases passes reg st m named qs.condition pk with e | b
      · rfl
      · cases b <;> rfl

/-- A key annotates under its label alone. -/
theorem FormOrder.names_share {reg : Registry} {m : Model} {o : FormOrder} {formMark raw : String} {s : Share OrderTerm}
    (h : o.share reg m formMark raw = .ok s) : ∀ name ∈ s.annotations.map Prod.fst, ∃ key, name = label key := by
  obtain ⟨meaning, -, h⟩ := Outcome.bind_eq_ok.mp h
  intro name hname
  cases meaning with
  | path path =>
      cases h
      cases hname
  | expression e =>
      cases h
      exact ⟨_, List.mem_singleton.mp hname⟩
  | passedOver =>
      cases h
      cases hname
  | unknown =>
      simp only at h
      split at h
      · cases h
        cases hname
      · cases h

namespace BoundForm

variable {reg : Registry} {b : BoundForm} {base qs : Queryset}

/-- The rows that pass a filter too, if it is given. -/
def takeIn (b : BoundForm) (qs : Queryset) (f : FormFilter) : Outcome Queryset :=
  match QueryForm.given? b.input f.name with
  | some v => f.apply qs v
  | none => .ok qs

/-- The keys that an order is asked for. -/
def keysFor (b : BoundForm) (o : FormOrder) : List String :=
  match QueryForm.given? b.input o.name with
  | some v => QueryForm.keysOf v
  | none => o.defaults

theorem filtered_def (reg : Registry) (b : BoundForm) (base : Queryset) : b.filtered reg base = (do
    let qs ← b.form.filters.foldlM b.takeIn base
    let (qs, terms) ← b.form.orders.foldlM
      (fun acc o => (b.keysFor o).foldlM (o.addKey reg b.form.model b.form.mark) acc) (qs, [])
    return qs.ordered terms) := rfl

/-- The keys of all orders, in order. -/
def askedKeys (b : BoundForm) : List (FormOrder × String) :=
  b.form.orders.flatMap fun o => (b.keysFor o).map fun raw => (o, raw)

/-- What the filters add for the input. -/
def filterShares (b : BoundForm) : Outcome (List (Share Condition)) := b.form.filters.mapM (·.shareOf b.input)

/-- What the asked keys add. -/
def keyShares (reg : Registry) (b : BoundForm) : Outcome (List (Share OrderTerm)) :=
  b.askedKeys.mapM fun k => k.1.share reg b.form.model b.form.mark k.2

theorem takeIn_eq (b : BoundForm) (qs : Queryset) (f : FormFilter) : b.takeIn qs f =
    (f.shareOf b.input).map fun s => (qs.annotated s.annotations).narrowed s.parts := by
  unfold takeIn FormFilter.shareOf
  cases QueryForm.given? b.input f.name with
  | some v => exact f.apply_eq qs v
  | none => simp [Queryset.narrowed]

theorem foldlM_takeIn (b : BoundForm) (base : Queryset) : b.form.filters.foldlM b.takeIn base =
    b.filterShares.map fun shares =>
      (base.annotated (shares.flatMap (·.annotations))).narrowed (shares.flatMap (·.parts)) := by
  rw [Outcome.foldlM_congr fun f _ qs => b.takeIn_eq qs f, Outcome.foldlM_map]
  simp only [Queryset.foldl_shares]
  rfl

theorem foldlM_addKey (b : BoundForm) (qs : Queryset) :
    b.form.orders.foldlM (fun acc o => (b.keysFor o).foldlM (o.addKey reg b.form.model b.form.mark) acc) (qs, []) =
      (b.keyShares reg).map fun shares =>
        (qs.annotated (shares.flatMap (·.annotations)), shares.flatMap (·.parts)) := by
  calc b.form.orders.foldlM (fun acc o => (b.keysFor o).foldlM (o.addKey reg b.form.model b.form.mark) acc) (qs, [])
    _ = b.askedKeys.foldlM (fun acc k => k.1.addKey reg b.form.model b.form.mark acc k.2) (qs, []) := by
      rw [askedKeys, Outcome.foldlM_flatMap]
      simp only [List.foldlM_map]
    _ = (b.keyShares reg).map fun shares =>
        (qs.annotated (shares.flatMap (·.annotations)), shares.flatMap (·.parts)) := by
      rw [Outcome.foldlM_congr fun k _ acc => k.1.addKey_eq reg b.form.model b.form.mark acc k.2, Outcome.foldlM_map]
      simp only [Queryset.foldl_keyShares, List.nil_append]
      rfl

/-- The filtered rows are the base with what each input adds. -/
theorem filtered_eq (reg : Registry) (b : BoundForm) (base : Queryset) : b.filtered reg base = (do
    let filters ← b.filterShares
    return base.assembled filters (← b.keyShares reg)) := by
  rw [filtered_def, foldlM_takeIn]
  cases b.filterShares with
  | error e => rfl
  | ok filters =>
      rw [Outcome.map_ok, Outcome.ok_bind, foldlM_addKey]
      cases b.keyShares reg <;> rfl

/-- Filtering succeeds if each input can be taken in. -/
theorem filtered_eq_ok : b.filtered reg base = .ok qs ↔ ∃ filters keys, b.filterShares = .ok filters ∧
    b.keyShares reg = .ok keys ∧ qs = base.assembled filters keys := by
  rw [filtered_eq]
  constructor
  · intro h
    obtain ⟨filters, hfilters, h⟩ := Outcome.bind_eq_ok.mp h
    obtain ⟨keys, hkeys, h⟩ := Outcome.bind_eq_ok.mp h
    exact ⟨filters, keys, hfilters, hkeys, (Except.ok.inj h).symm⟩
  · rintro ⟨filters, keys, hfilters, hkeys, rfl⟩
    rw [hfilters, hkeys]
    rfl

end BoundForm

end RecordMapper
