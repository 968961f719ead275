import RecordMapper.Database
import RecordMapper.Form.Basic
import RecordMapper.Proofs.Database.Runs
import RecordMapper.Proofs.Entries
import RecordMapper.Proofs.Form.Shares
import RecordMapper.Proofs.Registry.Built
import RecordMapper.Proofs.Read.Filtered

/-!
# Pages — the filtered rows of a form, piece by piece

The page of a form is a window of its filtered rows. Where slicing leaves
the annotations alone (`Uncut`), the window is all that tells the two
apart, so the pages of one size put together are the first of the
filtered rows. The sums and products behind a window stop at the largest
number of rows that can be counted; no store has more rows than that, so
the stop is not seen.
-/

namespace RecordMapper

/-- Pieces of one size, one behind the other, are the first part of a list. -/
theorem flatMap_pieces {α : Type} (xs : List α) (size count : Nat) :
    ((List.range count).flatMap fun i => (xs.drop (i * size)).take size) = xs.take (count * size) := by
  induction count with
  | zero => simp
  | succ count ih => rw [Nat.succ_mul, List.take_add, List.range_succ, List.flatMap_append, ih, List.flatMap_singleton]

/-! ## Windows of a selection -/

theorem Queryset.unsliced_eq {qs : Queryset} (h : qs.isSliced = false) : qs.unsliced = qs := by
  obtain ⟨m, condition, annotations, ordering, offset, limit, nothing, database⟩ := qs
  obtain ⟨rfl, rfl⟩ : offset = 0 ∧ limit = Option.none := isSliced_eq_false.mp h
  rfl

namespace Store

variable {rows : List Value}

/-- A window whose numbers stop at the largest count is, on rows that can be counted, the one meant. -/
theorem window_saturated (hcount : rows.length ≤ maxCount) (first size : Nat) :
    window (min (min first maxCount) maxCount)
      (some (min (min first maxCount + size) maxCount - min first maxCount)) rows = (rows.drop first).take size := by
  rw [window]
  by_cases hfirst : first ≤ maxCount
  · rw [Nat.min_eq_left hfirst, Nat.min_eq_left hfirst]
    have hlength : (rows.drop first).length ≤ maxCount - first := by
      rw [List.length_drop]
      omega
    rw [List.take_eq_take_iff]
    omega
  · rw [List.drop_eq_nil_of_le (by omega), List.drop_eq_nil_of_le (by omega)]
    simp

end Store

/-! ## What slicing leaves alone -/

namespace Registry

variable (reg : Registry) (m : Model)

mutual

/-- An expression without aggregates is left as it is. -/
theorem detach_of_hasAggregate : ∀ {e : Expression}, e.hasAggregate = false → reg.detach m e = .ok e
  | .column _, _ => rfl
  | .literal _, _ => rfl
  | .call name args, h => by
      rw [Expression.hasAggregate] at h
      rw [detach, detachAll_of_anyAggregate h, Outcome.map_ok]
  | .aggregate .., h => by cases h
  | .choose whens otherwise, h => by
      rw [Expression.hasAggregate, Bool.or_eq_false_iff] at h
      rw [detach, detachWhens_of_whenAggregate h.1, detachOtherwise_of_otherwiseAggregate h.2]
      rfl
  | .subquery .., _ => rfl
  | .arith op l r, h => by
      rw [Expression.hasAggregate, Bool.or_eq_false_iff] at h
      rw [detach, detach_of_hasAggregate h.1, detach_of_hasAggregate h.2]
      rfl

theorem detachAll_of_anyAggregate : ∀ {args : List Expression},
    Expression.anyAggregate args = false → reg.detachAll m args = .ok args
  | [], _ => rfl
  | e :: rest, h => by
      rw [Expression.anyAggregate, Bool.or_eq_false_iff] at h
      rw [detachAll, detach_of_hasAggregate h.1, detachAll_of_anyAggregate h.2]
      rfl

theorem detachWhens_of_whenAggregate : ∀ {whens : List (Condition × Expression)},
    Expression.whenAggregate whens = false → reg.detachWhens m whens = .ok whens
  | [], _ => rfl
  | (q, e) :: rest, h => by
      rw [Expression.whenAggregate, Bool.or_eq_false_iff] at h
      rw [detachWhens, detach_of_hasAggregate h.1, detachWhens_of_whenAggregate h.2]
      rfl

theorem detachOtherwise_of_otherwiseAggregate : ∀ {otherwise : Option Expression},
    Expression.otherwiseAggregate otherwise = false → reg.detachOtherwise m otherwise = .ok otherwise
  | none, _ => rfl
  | some e, h => by
      rw [Expression.otherwiseAggregate] at h
      rw [detachOtherwise, detach_of_hasAggregate h, Outcome.map_ok]

end

end Registry

/-- Annotating what is annotated already changes nothing. -/
theorem Queryset.annotate_of_lookup {qs : Queryset} {name : String} {e : Expression}
    (h : qs.annotations.lookup name = some e) :
    qs.annotate name e = qs := by
  cases qs
  exact congrArg (Queryset.mk _ _ · _ _ _ _ _) (insertEntry_of_lookup h)

/-- A queryset without a window whose annotations are left as they are when it is sliced. No name is annotated
twice. -/
structure Queryset.Uncut (reg : Registry) (qs : Queryset) : Prop where
  unsliced : qs.isSliced = false
  names : (qs.annotations.map Prod.fst).Nodup
  kept : ∀ a ∈ qs.annotations, reg.detach qs.model a.2 = .ok a.2

/-- The target of an input is a path or an expression without aggregates. -/
def FormTarget.Plain : FormTarget → Prop
  | .path _ => True
  | .expression e => e.hasAggregate = false

/-- The filters and orders of a form annotate no aggregate. -/
structure QueryForm.Plain (q : QueryForm) : Prop where
  filters : ∀ f ∈ q.filters, f.condition = none → f.target.Plain
  keys : ∀ o ∈ q.orders, ∀ k ∈ o.keys, k.2.Plain
  resolved : ∀ o ∈ q.orders, ∀ resolve, o.resolver = some resolve → ∀ key e, resolve key = .ok (some e) →
    e.hasAggregate = false

namespace Queryset.Uncut

variable {reg : Registry} {qs : Queryset}

theorem filter (h : qs.Uncut reg) (q : Condition) : (qs.filter q).Uncut reg := ⟨h.unsliced, h.names, h.kept⟩

theorem orderBy (h : qs.Uncut reg) (terms : List OrderTerm) : (qs.orderBy terms).Uncut reg :=
  ⟨h.unsliced, h.names, h.kept⟩

theorem annotate (h : qs.Uncut reg) (name : String) {e : Expression} (he : e.hasAggregate = false) :
    (qs.annotate name e).Uncut reg where
  unsliced := h.unsliced
  names := nodup_keys_insertEntry name e h.names
  kept a ha := by
    rcases mem_insertEntry ha with rfl | hold
    · exact Registry.detach_of_hasAggregate reg _ he
    · exact h.kept a hold

/-- Slicing makes nothing else of the annotations. -/
theorem detached (h : qs.Uncut reg) :
    (qs.annotations.foldlM (fun (acc : Queryset) (name, e) => do
      return acc.annotate name (← reg.detach qs.model e)) qs : Outcome Queryset) = .ok qs := by
  refine Outcome.foldlM_fixed fun a ha => ?_
  have hlookup : qs.annotations.lookup a.1 = some a.2 := (lookup_eq_some_iff_mem h.names).mpr ha
  show (do return qs.annotate a.1 (← reg.detach qs.model a.2) : Outcome Queryset) = .ok qs
  rw [h.kept a ha, Outcome.ok_bind, Queryset.annotate_of_lookup hlookup]
  rfl

end Queryset.Uncut

/-! ## Filtering -/

section Filtering

variable {reg : Registry} {q : QueryForm} {base qs qs' : Queryset} {b b' : BoundForm}

theorem FormFilter.apply_uncut {f : FormFilter} (hplain : f.condition = none → f.target.Plain) (h : qs.Uncut reg)
    {v : Value} (hqs : f.apply qs v = .ok qs') : qs'.Uncut reg := by
  unfold FormFilter.apply at hqs
  split at hqs
  · split at hqs
    · cases hqs
      exact h.filter _
    · split at hqs
      · cases hqs
        exact h
      · cases hqs
  · rename_i hnone
    have htarget := hplain hnone
    split at hqs
    · cases hqs
      exact h.filter _
    · rename_i e he
      rw [he] at htarget
      cases hqs
      exact (h.annotate _ htarget).filter _

theorem FormOrder.addKey_uncut {o : FormOrder} (hq : q.Plain) (ho : o ∈ q.orders) {m : Model} {mark raw : String}
    {acc acc' : Queryset × List OrderTerm} (h : acc.1.Uncut reg) (hacc : o.addKey reg m mark acc raw = .ok acc') :
    acc'.1.Uncut reg := by
  unfold FormOrder.addKey at hacc
  obtain ⟨meaning, hmeaning, hacc⟩ := Outcome.bind_eq_ok.mp hacc
  cases meaning with
  | path path =>
      cases hacc
      exact h
  | expression e =>
      cases hacc
      refine h.annotate _ ?_
      -- The expression is declared under the key or given by the resolver.
      have hstands : o.StandsFor reg m _ (.expression e) := FormOrder.standsFor_of_meaning hmeaning
      cases hstands with
      | declared hkey => exact hq.keys o ho _ (mem_of_lookup hkey)
      | resolved _ hresolver hresolve => exact hq.resolved o ho _ hresolver _ _ hresolve
  | unknown =>
      simp only at hacc
      split at hacc
      · cases hacc
        exact h
      · cases hacc
  | passedOver =>
      cases hacc
      exact h

/-- Filtering annotates what the filters and orders of the form annotate, and no window. -/
theorem BoundForm.filtered_uncut (hq : b.form.Plain) (hbase : base.Uncut reg) (h : b.filtered reg base = .ok qs) :
    qs.Uncut reg := by
  obtain ⟨narrowed, hnarrowed, h⟩ := Outcome.bind_eq_ok.mp h
  obtain ⟨⟨ordered, terms⟩, hordered, h⟩ := Outcome.bind_eq_ok.mp h
  have hfilters : narrowed.Uncut reg := by
    refine Outcome.foldlM_keeps (P := fun qs => qs.Uncut reg) (fun f hf qs qs' hqs happly => ?_) hbase hnarrowed
    split at happly
    · exact FormFilter.apply_uncut (hq.filters f hf) hqs happly
    · cases happly
      exact hqs
  have horders : ordered.Uncut reg := by
    refine Outcome.foldlM_keeps (P := fun acc : Queryset × List OrderTerm => acc.1.Uncut reg)
      (fun o ho acc acc' hacc hadd => ?_) hfilters hordered
    exact Outcome.foldlM_keeps (P := fun acc : Queryset × List OrderTerm => acc.1.Uncut reg)
      (fun _ _ _ _ hacc hadd => FormOrder.addKey_uncut hq ho hacc hadd) hacc hadd
  cases h
  split
  · exact horders
  · exact horders.orderBy terms

/-- Filtering looks at the inputs of the filters and orders alone. -/
theorem BoundForm.filtered_congr (hform : b'.form = b.form)
    (hinput : ∀ name ∈ b.form.filters.map (·.name) ++ b.form.orders.map (·.name),
      QueryForm.given? b'.input name = QueryForm.given? b.input name) (base : Queryset) :
    b'.filtered reg base = b.filtered reg base := by
  unfold BoundForm.filtered
  rw [hform]
  have hfilters : ∀ f ∈ b.form.filters, QueryForm.given? b'.input f.name = QueryForm.given? b.input f.name :=
    fun f hf => hinput _ (List.mem_append_left _ (List.mem_map_of_mem hf))
  have horders : ∀ o ∈ b.form.orders, QueryForm.given? b'.input o.name = QueryForm.given? b.input o.name :=
    fun o ho => hinput _ (List.mem_append_right _ (List.mem_map_of_mem ho))
  rw [Outcome.foldlM_congr fun f hf qs => by rw [hfilters f hf]]
  refine congrArg _ (funext fun narrowed => ?_)
  rw [Outcome.foldlM_congr fun o ho acc => by rw [horders o ho]]

/-- A page is a slice of the filtered rows. -/
theorem BoundForm.paged_eq (h : b.filtered reg base = .ok qs) (hqs : qs.Uncut reg) {w : Window}
    (hw : b.window = some w) :
    b.paged reg base = .ok (qs.slice w.first (w.limit.map fun n => min (w.first + n) maxCount)) := by
  simp only [BoundForm.paged, h, hw, Outcome.ok_bind, hqs.detached]
  rfl

end Filtering

/-! ## Binding -/

namespace QueryForm

variable {reg : Registry} {q : QueryForm} {input turned : Record} {b : BoundForm} {st : Store} {base qs : Queryset}
  {rows : List Value} {p n size : Nat}

/-- The limit that a form makes of one that is asked for. -/
def capped (q : QueryForm) (n : Nat) : Nat :=
  match q.maxLimit with
  | some most => min n most
  | none => n

/-- A name of an input for pages: the page itself, the limit or the offset. -/
def Paging (q : QueryForm) (name : String) : Prop := q.page = some name ∨ q.limit = some name ∨ q.offset = some name

/-- An input asks for a page of what another asks for: it names the page, and is the same beside that. -/
structure Turns (q : QueryForm) (input : Record) (p : Nat) (turned : Record) : Prop where
  page : countOf turned q.page = .ok (some p)
  same : ∀ name, q.page ≠ some name → given? turned name = given? input name

theorem firstRepeated?_eq (seen names : List String) : firstRepeated? seen names = Registry.repeated? seen names := by
  induction names generalizing seen with
  | nil => rfl
  | cons name rest ih => rw [firstRepeated?, Registry.repeated?, ih]

/-- A checked form names no input twice. -/
theorem nodup_inputNames (h : q.check reg = .ok ()) : q.inputNames.Nodup := by
  unfold check at h
  split at h
  · cases h
  · rename_i hnone
    rw [firstRepeated?_eq] at hnone
    exact (Registry.repeated?_eq_none hnone).1

/-- The inputs of filters and orders are none of those for pages. -/
theorem not_paging (h : q.check reg = .ok ()) {name : String}
    (hname : name ∈ q.filters.map (·.name) ++ q.orders.map (·.name)) : ¬ q.Paging name := by
  have hnodup := nodup_inputNames h
  rw [inputNames] at hnodup
  have hapart := (List.nodup_append.mp hnodup).2.2 name hname name
  intro hpaging
  refine hapart (List.mem_filterMap.mpr ⟨some name, ?_, rfl⟩) rfl
  rcases hpaging with h | h | h <;> simp [h]

/-- The limit and the offset are asked for under other names than the page. -/
theorem page_ne (h : q.check reg = .ok ()) {name : String} (hname : q.limit = some name ∨ q.offset = some name) :
    q.page ≠ some name := by
  intro hpage
  have hnodup := (List.nodup_append.mp (nodup_inputNames h)).2.1
  rcases hname with hlimit | hoffset
  · simp [hpage, hlimit] at hnodup
  · cases hlimit : q.limit <;> simp [hpage, hlimit, hoffset] at hnodup

theorem countOf_congr {name : Option String} (h : ∀ n, name = some n → given? turned n = given? input n) :
    countOf turned name = countOf input name := by
  cases name with
  | none => rfl
  | some n => rw [countOf, countOf, h n rfl]

theorem checkRequired_congr (h : ∀ f ∈ q.filters, given? turned f.name = given? input f.name)
    (hrequired : q.checkRequired input = .ok ()) : q.checkRequired turned = .ok () := by
  refine Outcome.forM_eq_ok.mpr fun f hf => ?_
  rw [h f hf]
  exact Outcome.forM_eq_ok.mp hrequired f hf

/-- All that binding checks and computes. -/
theorem bind_eq_ok : q.bind input = .ok b ↔ q.checkRequired input = .ok () ∧ ∃ page limit offset,
    countOf input q.page = .ok page ∧ countOf input q.limit = .ok limit ∧ countOf input q.offset = .ok offset ∧
      page ≠ some 0 ∧ ∃ window, q.windowOf page (limit.map q.capped) offset = .ok window ∧ b = ⟨q, input, window⟩ := by
  constructor
  · intro h
    obtain ⟨⟨⟩, hrequired, h⟩ := Outcome.bind_eq_ok.mp h
    obtain ⟨page, hpage, h⟩ := Outcome.bind_eq_ok.mp h
    obtain ⟨limit, hlimit, h⟩ := Outcome.bind_eq_ok.mp h
    obtain ⟨offset, hoffset, h⟩ := Outcome.bind_eq_ok.mp h
    by_cases hzero : page = some 0
    · rw [if_pos (by simpa using hzero)] at h
      cases h
    rw [if_neg (by simpa using hzero)] at h
    obtain ⟨window, hwindow, h⟩ := Outcome.bind_eq_ok.mp h
    exact ⟨hrequired, page, limit, offset, hpage, hlimit, hoffset, hzero, window, hwindow, (Except.ok.inj h).symm⟩
  · rintro ⟨hrequired, page, limit, offset, hpage, hlimit, hoffset, hzero, window, hwindow, rfl⟩
    simp only [bind, hrequired, hpage, hlimit, hoffset, Outcome.ok_bind]
    rw [if_neg (by simpa using hzero)]
    show (q.windowOf page (limit.map q.capped) offset >>= fun window => pure (BoundForm.mk q input window)) = _
    rw [hwindow]
    rfl

theorem countOf_le {name : Option String} (h : countOf input name = .ok (some n)) : n ≤ maxCount := by
  unfold countOf at h
  split at h
  · cases h
  · split at h
    · cases h
    · rename_i v hv
      simp only at h
      split at h
      · rename_i i hnumber
        have hfits : i ≤ 9223372036854775807 := by
          split at hnumber
          · rename_i w
            cases hnumber
            have := w.toInt_lt
            omega
          · exact (of_decide_eq_true (Option.filter_eq_some_iff.mp hnumber).2).2
          · cases hnumber
        split at h
        · cases h
          have hmax : (9223372036854775807 : Int) ≤ (maxCount : Nat) := by decide
          omega
        · cases h
      · cases h

/-- A window starts where its page does, or at the offset if that is further. -/
theorem windowOf_eq_some {page limit offset : Option Nat} {w : Window} (h : q.windowOf page limit offset = .ok (some w))
    (hoffset : ∀ n, offset = some n → n ≤ maxCount) : w.limit = limit ∧ w.first ≤ maxCount := by
  unfold windowOf at h
  split at h
  · cases h
  · cases h
  · cases h
    refine ⟨rfl, Nat.max_le.mpr ⟨?_, ?_⟩⟩
    · cases offset with
      | none => exact Nat.zero_le _
      | some n => exact hoffset n rfl
    · split
      · exact Nat.min_le_right ..
      · exact Nat.zero_le _

end QueryForm

/-- The numbers of a window are row counts. -/
def Window.Fits (w : Window) : Prop := w.first ≤ maxCount ∧ ∀ n, w.limit = some n → n ≤ maxCount

theorem QueryForm.bind_fits {q : QueryForm} {input : Record} {b : BoundForm} (h : q.bind input = .ok b) {w : Window}
    (hw : b.window = some w) : w.Fits := by
  obtain ⟨_, page, limit, offset, _, hlimit, hoffset, _, window, hwindow, rfl⟩ := bind_eq_ok.mp h
  obtain rfl : window = some w := hw
  obtain ⟨hwlimit, hfirst⟩ := windowOf_eq_some hwindow fun n hn => countOf_le (hn ▸ hoffset)
  refine ⟨hfirst, fun n hn => ?_⟩
  obtain ⟨asked, rfl, rfl⟩ := Option.map_eq_some_iff.mp (hwlimit.symm.trans hn)
  have hasked := countOf_le hlimit
  unfold capped
  split
  · exact (Nat.min_le_left ..).trans hasked
  · exact hasked

/-- Slicing up to a count leaves a window of counts. -/
theorem Queryset.slice_fits {qs : Queryset} (hsliced : qs.isSliced = false) (first : Nat) {last : Option Nat}
    (hlast : ∀ n, last = some n → n ≤ maxCount) : Window.Fits ⟨(qs.slice first last).offset, (qs.slice first last).limit⟩ := by
  have hlimit := (isSliced_eq_false.mp hsliced).2
  refine ⟨Nat.min_le_right .., fun n hn => ?_⟩
  simp only [slice, hlimit, Option.map_none, tighter] at hn
  obtain ⟨stop, hstop, rfl⟩ := Option.map_eq_some_iff.mp hn
  exact (Nat.sub_le ..).trans (hlast stop hstop)

/-! ## The pages of a form -/

namespace QueryForm

variable {reg : Registry} {q : QueryForm} {input turned other : Record} {b b' : BoundForm} {st : Store}
  {base qs : Queryset} {rows : List Value} {p n : Nat}

/-- The rows that the form selects for an input. -/
def selectPage (reg : Registry) (q : QueryForm) (st : Store) (base : Queryset) (input : Record) :
    Outcome (List Value) := do
  let b ← q.bind input
  let qs ← b.paged reg base
  Store.select reg st qs

theorem bind_turned (hq : q.check reg = .ok ()) (hb : q.bind input = .ok b) (hlimit : countOf input q.limit = .ok (some n))
    (hoffset : countOf input q.offset = .ok none) (h : q.Turns input (p + 1) turned) :
    q.bind turned = .ok ⟨q, turned, some ⟨min (p * q.capped n) maxCount, some (q.capped n)⟩⟩ := by
  obtain ⟨hrequired, _⟩ := bind_eq_ok.mp hb
  refine bind_eq_ok.mpr ⟨checkRequired_congr (fun f hf => h.same _ fun hpage => ?_) hrequired, some (p + 1), some n, none,
    h.page, ?_, ?_, by simp, _, ?_, rfl⟩
  · exact not_paging hq (List.mem_append_left _ (List.mem_map_of_mem hf)) (.inl hpage)
  · rw [← hlimit]
    exact countOf_congr fun name hname => h.same name (page_ne hq (.inl hname))
  · rw [← hoffset]
    exact countOf_congr fun name hname => h.same name (page_ne hq (.inr hname))
  · simp [windowOf]

theorem form_of_bind (h : q.bind input = .ok b) : b.form = q ∧ b.input = input := by
  obtain ⟨_, _, _, _, _, _, _, _, _, _, rfl⟩ := bind_eq_ok.mp h
  exact ⟨rfl, rfl⟩

/-- What is filtered does not depend on the page, the limit and the offset. -/
theorem filtered_other (hq : q.check reg = .ok ()) (hb : q.bind input = .ok b) (hb' : q.bind other = .ok b')
    (h : ∀ name, ¬ q.Paging name → given? other name = given? input name) (base : Queryset) :
    b'.filtered reg base = b.filtered reg base := by
  obtain ⟨hform, hinput⟩ := form_of_bind hb
  obtain ⟨hform', hinput'⟩ := form_of_bind hb'
  refine BoundForm.filtered_congr (hform'.trans hform.symm) (fun name hname => ?_) base
  rw [hinput, hinput']
  exact h name (not_paging hq (hform ▸ hname))

variable (hq : q.check reg = .ok ()) (hplain : q.Plain) (hbase : base.Uncut reg) (hb : q.bind input = .ok b)
  (hqs : b.filtered reg base = .ok qs) (hrows : Store.select reg st qs = .ok rows) (hcount : rows.length ≤ maxCount)
  (hlimit : countOf input q.limit = .ok (some n)) (hoffset : countOf input q.offset = .ok none)

include hq hplain hbase hb hqs hrows hcount hlimit hoffset in
theorem selectPage_turned (h : q.Turns input (p + 1) turned) :
    q.selectPage reg st base turned = .ok ((rows.drop (p * q.capped n)).take (q.capped n)) := by
  have hbind := bind_turned hq hb hlimit hoffset h
  have hfiltered := filtered_other hq hb hbind (fun name hname => h.same name fun hpage => hname (.inl hpage)) base
  have huncut := BoundForm.filtered_uncut ((form_of_bind hb).1 ▸ hplain) hbase hqs
  simp only [selectPage, hbind, Outcome.ok_bind, BoundForm.paged_eq (hfiltered.trans hqs) huncut rfl, Option.map_some,
    Store.select_slice huncut.unsliced hrows, Store.window_saturated hcount]

/-- The pages of a form whose filters and orders annotate no aggregate, over a queryset without a window whose annotations
slicing leaves alone. As many pages as one likes, one behind the other, are the first of the filtered rows, page by page as
many as the limit says, or the cap if that is less; the filtered rows are counted whatever page and limit are asked for;
and whatever is asked for, the window is one of row counts. There are no more rows than can be counted. -/
theorem pages_of_filtered (hq : q.check reg = .ok ()) (hplain : q.Plain) (hbase : base.Uncut reg) (hb : q.bind input = .ok b)
    (hqs : b.filtered reg base = .ok qs) (hrows : Store.select reg st qs = .ok rows) (hcount : rows.length ≤ maxCount)
    (hlimit : countOf input q.limit = .ok (some n)) (hoffset : countOf input q.offset = .ok none) :
    (∀ (count : Nat) (turned : Nat → Record), (∀ i < count, q.Turns input (i + 1) (turned i)) →
      ∃ pages, (List.range count).mapM (fun i => q.selectPage reg st base (turned i)) = .ok pages ∧
        pages.flatten = rows.take (count * q.capped n)) ∧
    (∀ other b', (∀ name, ¬ q.Paging name → given? other name = given? input name) → q.bind other = .ok b' →
      ∃ counted, b'.counting reg base = .ok counted ∧ ∀ db : Database, db.store = st →
        ∀ now, (db.perform reg now (.count counted)).1 = .ok rows.length) ∧
    ∀ other b' w, q.bind other = .ok b' → b'.window = some w →
      w.Fits ∧ ∀ sliced, b'.paged reg base = .ok sliced → Window.Fits ⟨sliced.offset, sliced.limit⟩ := by
  have huncut := BoundForm.filtered_uncut ((form_of_bind hb).1 ▸ hplain) hbase hqs
  refine ⟨fun count turned hturned => ?_, fun other b' hother hb' => ?_, fun other b' w hb' hw => ?_⟩
  · refine ⟨(List.range count).map fun i => (rows.drop (i * q.capped n)).take (q.capped n), Outcome.mapM_ok fun i hi => ?_, ?_⟩
    · exact selectPage_turned hq hplain hbase hb hqs hrows hcount hlimit hoffset (hturned i (List.mem_range.mp hi))
    · rw [← flatMap_pieces, List.flatMap_def]
  · have hcounting : b'.counting reg base = .ok qs.unsliced.unordered := by
      simp only [BoundForm.counting, filtered_other hq hb hb' hother, hqs, Outcome.ok_bind]
      rfl
    refine ⟨_, hcounting, fun db hst now => ?_⟩
    obtain ⟨rows', hrows', hperm⟩ := Store.select_unordered hrows huncut.unsliced
    rw [Queryset.unsliced_eq huncut.unsliced, ← hperm.length_eq]
    exact Database.perform_count (hst ▸ hrows') now
  · obtain ⟨hfirst, hwlimit⟩ := bind_fits hb' hw
    refine ⟨⟨hfirst, hwlimit⟩, fun sliced hsliced => ?_⟩
    obtain ⟨qs', hqs', _⟩ := Outcome.bind_eq_ok.mp hsliced
    have huncut' := BoundForm.filtered_uncut ((form_of_bind hb').1 ▸ hplain) hbase hqs'
    rw [BoundForm.paged_eq hqs' huncut' hw] at hsliced
    cases hsliced
    refine Queryset.slice_fits huncut'.unsliced _ fun stop hstop => ?_
    obtain ⟨size, _, rfl⟩ := Option.map_eq_some_iff.mp hstop
    exact Nat.min_le_right ..

end QueryForm

/-! ## Pages of what writers wrote -/

namespace QueryForm

open Registry

def article : Model := modelOf (built writers) "article"

/-- Articles of at least so many words, the shortest first, at most two on a page. -/
def articles : QueryForm where
  model := article
  filters := [{ name := "least", target := .path "words", test := some .gte }]
  orders := [{ name := "by", defaults := ["words"] }]
  page := some "page"
  limit := some "limit"
  maxLimit := some 2

theorem articles_plain : articles.Plain where
  filters f hf _ := by
    rw [List.mem_singleton.mp hf]
    trivial
  keys o ho k hk := by
    rw [List.mem_singleton.mp ho] at hk
    cases hk
  resolved o ho resolve hresolve := by
    rw [List.mem_singleton.mp ho] at hresolve
    cases hresolve

/-- The input for a page of five. -/
def pageOfFive (p : Int64) : Record := [("limit", .int 5), ("page", .int p)]

theorem turns_pageOfFive {i : Nat} (h : i < 2) :
    articles.Turns [("limit", .int 5)] (i + 1) (pageOfFive (Int64.ofNat (i + 1))) where
  page :=
    match i, h with
    | 0, _ => rfl
    | 1, _ => rfl
  same name hname := by
    have hne : (name == "page") = false := beq_eq_false_iff_ne.mpr fun he => hname (he ▸ rfl)
    simp [given?, pageOfFive, Record.get?, List.lookup_cons, hne]

/-- The form bound to a limit of five. -/
def boundToFive : BoundForm := ⟨articles, [("limit", .int 5)], some ⟨0, some 2⟩⟩

/-- The articles with the order of the form. -/
def byWords : Queryset := (Queryset.all article).orderBy [⟨.column "words", false, .least⟩]

theorem pages_of_articles :
    articles.check (built writers) = .ok () ∧ (Queryset.all article).Uncut (built writers) ∧
      articles.bind [("limit", .int 5)] = .ok boundToFive ∧
      boundToFive.filtered (built writers) (Queryset.all article) = .ok byWords ∧
      Store.select (built writers) writings byWords = .ok [.int 3, .int 1, .int 2] ∧
      ∃ pages, (List.range 2).mapM (fun i => articles.selectPage (built writers) writings (Queryset.all article)
        (pageOfFive (Int64.ofNat (i + 1)))) = .ok pages ∧ pages.flatten = [.int 3, .int 1, .int 2] := by
  have hcheck : articles.check (built writers) = .ok () := rfl
  have huncut : (Queryset.all article).Uncut (built writers) := ⟨rfl, .nil, fun _ ha => absurd ha List.not_mem_nil⟩
  have hbind : articles.bind [("limit", .int 5)] = .ok boundToFive := rfl
  have hfiltered : boundToFive.filtered (built writers) (Queryset.all article) = .ok byWords := rfl
  have hselect : Store.select (built writers) writings byWords = .ok [.int 3, .int 1, .int 2] := rfl
  exact ⟨hcheck, huncut, hbind, hfiltered, hselect,
    (pages_of_filtered hcheck articles_plain huncut hbind hfiltered hselect (by decide) rfl rfl).1 2 _
      fun i hi => turns_pageOfFive hi⟩

/-- A form with nothing but pages. -/
def authors : QueryForm := { model := author, filters := [], orders := [], page := some "page", limit := some "limit" }

/-- The authors with twice the words of their articles. -/
def twiceTheWords : Queryset :=
  (Queryset.all author).annotate "twice"
    (.aggregateOf .sum (.arith .mul (.column "articles.words") (.literal (.int 2))))

/-- The authors with two articles, as their own key tells. -/
def withTwoArticles : Queryset :=
  ((Queryset.all author).annotate "n" ownArticles).filter (.test "n" (.exact (.int 2)))

/-- What a form without filters and orders makes of a queryset, and the first page of it. -/
def wholeAndPage (base : Queryset) : Outcome (Queryset × Queryset) := do
  let b ← authors.bind [("page", .int 1), ("limit", .int 5)]
  return (← b.filtered (built writers) base, ← b.paged (built writers) base)

/-- Where the queryset annotates aggregates itself, its pages are not its rows. A page is refused for an aggregate over an
expression, and one whose filter strays when it is detached selects other rows. -/
theorem pages_of_aggregates :
    authors.check (built writers) = .ok () ∧ authors.Plain ∧
      (∃ whole page, wholeAndPage twiceTheWords = .ok (whole, page) ∧
        writings.fetch (built writers) whole [.ofPath "id"] = .ok [[("id", .int 1)], [("id", .int 2)]] ∧
        writings.fetch (built writers) page [.ofPath "id"] = .error (.aggregateOnSlice "author")) ∧
      ∃ whole page, wholeAndPage withTwoArticles = .ok (whole, page) ∧
        Store.select (built writers) writings whole = .ok [.int 1] ∧
        Store.select (built writers) writings page = .ok [] := by
  refine ⟨rfl, ⟨?_, ?_, ?_⟩, ⟨_, _, rfl, rfl, rfl⟩, _, _, rfl, rfl, rfl⟩
  all_goals
    intro _ h
    cases h

end QueryForm

end RecordMapper
