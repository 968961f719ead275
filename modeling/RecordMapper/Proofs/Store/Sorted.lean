import RecordMapper.Proofs.Database.Runs
import RecordMapper.Proofs.Read.Unfiltered
import RecordMapper.Proofs.Steps.Running
import RecordMapper.Proofs.Store.Selection
import RecordMapper.Proofs.Value.Plain

/-!
# Sorted — the rows of a queryset stand in its order

Values of one kind have an order that does not contradict itself, and so
have lists of them under the terms of an order: the first term that tells
two lists apart decides (`OrderTerm.Precedes`), and null stands where the
term puts it. The rows of a queryset whose terms give values of one kind
each are therefore those that pass its condition, in that order, and as
they stand in the table where no term tells them apart
(`select_sorted`). Counting the rows, or asking for one, sees the same
window of them.
-/

namespace RecordMapper

/-! ## Values of one kind -/

/-- The kinds of values of which any two have an order. -/
inductive SortKind
  | bool
  | int
  | text
  | bytes
  | date
  | instant
  | uuid
  deriving DecidableEq, Repr

theorem Date.order_eq_compareLex :
    Date.order = compareLex (compareOn year) (compareLex (compareOn month) (compareOn day)) := rfl

theorem Instant.order_eq_compareLex : Instant.order = compareLex (compareOn seconds) (compareOn nanos) := rfl

theorem Uuid.order_eq_compareOn : Uuid.order = compareOn fun u : Uuid => u.bits.toNat := rfl

namespace Value

theorem compareBytes_eq_compareLex : compareBytes = List.compareLex (compareOn UInt8.toNat) := by
  funext as bs
  induction as generalizing bs with
  | nil => cases bs <;> rfl
  | cons a as ih =>
      cases bs with
      | nil => rfl
      | cons b bs =>
          rw [compareBytes, ih, List.compareLex_cons_cons]
          rfl

/-- A value of a kind. -/
inductive OfKind : SortKind → Value → Prop
  | bool (b : Bool) : OfKind .bool (.bool b)
  | int (n : Int64) : OfKind .int (.int n)
  | text (s : String) : OfKind .text (.text s)
  | bytes (bs : List UInt8) : OfKind .bytes (.bytes bs)
  | date (d : Date) : OfKind .date (.date d)
  | instant (t : Instant) : OfKind .instant (.instant t)
  | uuid (u : Uuid) : OfKind .uuid (.uuid u)

/-- Null, or a value of a kind. -/
def NullOrOf (k : SortKind) (v : Value) : Prop := v = .null ∨ v.OfKind k

variable {k : SortKind} {a b c : Value}

theorem OfKind.isPlain (h : a.OfKind k) : a.isPlain := by
  cases h <;> rfl

theorem OfKind.ne_null (h : a.OfKind k) : a ≠ .null := ne_null_of_isPlain h.isPlain

/-- Values of one kind are ordered, and are the same if neither is less. -/
theorem OfKind.exists_compare? (ha : a.OfKind k) (hb : b.OfKind k) :
    ∃ o, a.compare? b = some o ∧ (o = .eq ↔ a = b) := by
  have hordered : ∃ o, a.compare? b = some o := by
    cases ha <;> cases hb <;> exact ⟨_, rfl⟩
  obtain ⟨o, ho⟩ := hordered
  refine ⟨o, ho, ?_⟩
  rw [← numEq_iff_of_isPlain (.inr ha.isPlain) hb.isPlain, numEq, ho, beq_iff_eq, Option.some.injEq]

theorem OfKind.compare?_trans (ha : a.OfKind k) (hb : b.OfKind k) (hc : c.OfKind k) {o : Ordering} (ho : o ≠ .eq)
    (hab : a.compare? b = some o) (hbc : b.compare? c = some o) : a.compare? c = some o := by
  cases ha <;> cases hb <;> cases hc <;>
    simp only [compare?, Option.some.injEq, Date.order_eq_compareLex, Instant.order_eq_compareLex,
      Uuid.order_eq_compareOn, compareBytes_eq_compareLex] at hab hbc ⊢ <;>
    cases o <;>
    first
      | exact absurd rfl ho
      | exact Std.TransCmp.lt_trans hab hbc
      | exact Std.TransCmp.gt_trans hab hbc

end Value

/-! ## Terms -/

namespace OrderTerm

/-- Null stands before other values: where the term says so, and as the least value of a term that ascends. -/
def NullsFirst (t : OrderTerm) : Prop := t.nulls = .first ∨ t.nulls = .least ∧ t.descending = false

/-- What stands before what under a term: null on its side, and the less before the greater or, where the term
descends, the greater before the less. -/
inductive Before (t : OrderTerm) : Value → Value → Prop
  | nullFirst {b : Value} : t.NullsFirst → b ≠ .null → Before t .null b
  | nullLast {a : Value} : ¬ t.NullsFirst → a ≠ .null → Before t a .null
  | ascending {a b : Value} : t.descending = false → a.compare? b = some .lt → Before t a b
  | descending {a b : Value} : t.descending = true → a.compare? b = some .gt → Before t a b

/-- What stands before what under several terms: the first that differ stand so under their term. -/
inductive Precedes : List OrderTerm → List Value → List Value → Prop
  | here {t : OrderTerm} {ts : List OrderTerm} {a b : Value} {as bs : List Value} : a ≠ b → t.Before a b →
      Precedes (t :: ts) (a :: as) (b :: bs)
  | later {t : OrderTerm} {ts : List OrderTerm} {a : Value} {as bs : List Value} : Precedes ts as bs →
      Precedes (t :: ts) (a :: as) (a :: bs)

end OrderTerm

namespace SortTerm

variable {k : SortKind} {kinds : List SortKind} {a b c : Value} {as bs cs : List Value} {term : OrderTerm}
  {t : SortTerm}
  {terms : List SortTerm} {value : RowValue}

/-! ### One term -/

theorem order_null_left (hb : b ≠ .null) : t.order .null b = if t.nullFirst then .lt else .gt := by
  rw [order, Bool.eq_false_iff.mpr (mt Value.isNull_iff.mp hb)]
  rfl

theorem order_null_right (ha : a ≠ .null) : t.order a .null = if t.nullFirst then .gt else .lt := by
  rw [order, Bool.eq_false_iff.mpr (mt Value.isNull_iff.mp ha)]
  rfl

theorem order_of_compare? (ha : a ≠ .null) (hb : b ≠ .null) {o : Ordering} (h : a.compare? b = some o) :
    t.order a b = if t.descending then o.swap else o := by
  rw [order, Bool.eq_false_iff.mpr (mt Value.isNull_iff.mp ha), Bool.eq_false_iff.mpr (mt Value.isNull_iff.mp hb), h]
  rfl

/-- A term does not tell apart what is the same and nothing else. -/
theorem order_eq_eq (ha : a.NullOrOf k) (hb : b.NullOrOf k) : t.order a b = .eq ↔ a = b := by
  rcases ha with rfl | ha <;> rcases hb with rfl | hb
  · exact iff_of_true rfl rfl
  · rw [order_null_left hb.ne_null]
    refine iff_of_false ?_ hb.ne_null.symm
    split <;> exact Ordering.noConfusion
  · rw [order_null_right ha.ne_null]
    refine iff_of_false ?_ ha.ne_null
    split <;> exact Ordering.noConfusion
  · obtain ⟨o, ho, heq⟩ := ha.exists_compare? hb
    rw [← heq, order_of_compare? ha.ne_null hb.ne_null ho]
    split <;> simp

theorem order_gt_trans (ha : a.NullOrOf k) (hb : b.NullOrOf k) (hc : c.NullOrOf k) (hab : t.order a b = .gt)
    (hbc : t.order b c = .gt) : t.order a c = .gt := by
  rcases ha with rfl | ha <;> rcases hb with rfl | hb <;> rcases hc with rfl | hc
  · cases hab
  · cases hab
  · -- Null stands on one side of all others.
    rw [order_null_left hb.ne_null] at hab
    rw [order_null_right hb.ne_null] at hbc
    cases hfirst : t.nullFirst <;> simp [hfirst] at hab hbc
  · rw [order_null_left hb.ne_null] at hab
    rw [order_null_left hc.ne_null]
    exact hab
  · cases hbc
  · rw [order_null_right ha.ne_null] at hab
    rw [order_null_left hc.ne_null] at hbc
    cases hfirst : t.nullFirst <;> simp [hfirst] at hab hbc
  · rw [order_null_right hb.ne_null] at hbc
    rw [order_null_right ha.ne_null]
    exact hbc
  · obtain ⟨o, ho, -⟩ := ha.exists_compare? hb
    obtain ⟨o', ho', -⟩ := hb.exists_compare? hc
    rw [order_of_compare? ha.ne_null hb.ne_null ho] at hab
    rw [order_of_compare? hb.ne_null hc.ne_null ho'] at hbc
    have hwanted : o = o' ∧ o ≠ .eq := by
      cases t.descending <;> cases o <;> cases o' <;> simp_all
    have hac := ha.compare?_trans hb hc hwanted.2 ho (hwanted.1 ▸ ho')
    rw [order_of_compare? ha.ne_null hc.ne_null hac, hab]

theorem nullFirst_iff : (⟨value, term.descending, term.nulls⟩ : SortTerm).nullFirst = true ↔ term.NullsFirst := by
  unfold nullFirst OrderTerm.NullsFirst
  cases term.nulls <;> simp

theorem before_of_order (ha : a.NullOrOf k) (hb : b.NullOrOf k)
    (h : (⟨value, term.descending, term.nulls⟩ : SortTerm).order a b = .lt) : term.Before a b := by
  rcases ha with rfl | ha <;> rcases hb with rfl | hb
  · cases h
  · rw [order_null_left hb.ne_null] at h
    split at h
    · exact .nullFirst (nullFirst_iff.mp ‹_›) hb.ne_null
    · cases h
  · rw [order_null_right ha.ne_null] at h
    split at h
    · cases h
    · rename_i hlast
      exact .nullLast (mt nullFirst_iff.mpr hlast) ha.ne_null
  · obtain ⟨o, ho, -⟩ := ha.exists_compare? hb
    rw [order_of_compare? ha.ne_null hb.ne_null ho] at h
    split at h
    · rename_i hdescending
      obtain rfl : o = .gt := by simpa using h
      exact .descending hdescending ho
    · rename_i hascending
      exact .ascending (Bool.eq_false_iff.mpr hascending) (h ▸ ho)

/-! ### Several terms -/

/-- Lists of values of one kind each are not told apart if they are the same. -/
theorem orderAll_eq_eq (hterms : terms.length = kinds.length) (ha : List.Forall₂ Value.NullOrOf kinds as)
    (hb : List.Forall₂ Value.NullOrOf kinds bs) : orderAll terms as bs = .eq ↔ as = bs := by
  induction terms generalizing kinds as bs with
  | nil =>
      obtain rfl := List.length_eq_zero_iff.mp hterms.symm
      cases ha
      cases hb
      exact iff_of_true rfl rfl
  | cons t ts ih =>
      cases ha with
      | nil => cases hterms
      | cons ha has =>
          cases hb with
          | cons hb hbs =>
              rw [orderAll, Ordering.then_eq_eq, order_eq_eq ha hb, ih (Nat.succ.inj hterms) has hbs, List.cons.injEq]

/-- The order of lists of values of one kind each is handed on. -/
theorem orderAll_ne_lt_trans (hterms : terms.length = kinds.length) (ha : List.Forall₂ Value.NullOrOf kinds as)
    (hb : List.Forall₂ Value.NullOrOf kinds bs) (hc : List.Forall₂ Value.NullOrOf kinds cs)
    (hab : orderAll terms as bs ≠ .lt) (hbc : orderAll terms bs cs ≠ .lt) : orderAll terms as cs ≠ .lt := by
  induction terms generalizing kinds as bs cs with
  | nil => exact Ordering.noConfusion
  | cons t ts ih =>
      cases ha with
      | nil => cases hterms
      | @cons _ a _ as ha has =>
          cases hb with
          | @cons _ b _ bs hb hbs =>
              cases hc with
              | @cons _ c _ cs hc hcs =>
                  rw [orderAll, Ne, Ordering.then_eq_lt, not_or, not_and] at hab hbc ⊢
                  have ih := ih (Nat.succ.inj hterms) has hbs hcs
                  rcases hfirst : t.order a b with - | - | -
                  · exact absurd hfirst hab.1
                  · obtain rfl := (order_eq_eq ha hb).mp hfirst
                    exact ⟨hbc.1, fun heq => ih (hab.2 hfirst) (hbc.2 heq)⟩
                  · rcases hsecond : t.order b c with - | - | -
                    · exact absurd hsecond hbc.1
                    · obtain rfl := (order_eq_eq hb hc).mp hsecond
                      rw [hfirst]
                      exact ⟨Ordering.noConfusion, Ordering.noConfusion⟩
                    · rw [order_gt_trans ha hb hc hfirst hsecond]
                      exact ⟨Ordering.noConfusion, Ordering.noConfusion⟩

/-- What is less under terms comes first under the terms of the order that they belong to. -/
theorem precedes_of_orderAll {value : OrderTerm → RowValue} {ordering : List OrderTerm}
    (ha : List.Forall₂ Value.NullOrOf kinds as) (hb : List.Forall₂ Value.NullOrOf kinds bs)
    (h : orderAll (ordering.map fun t => ⟨value t, t.descending, t.nulls⟩) as bs = .lt) :
    OrderTerm.Precedes ordering as bs := by
  induction ordering generalizing kinds as bs with
  | nil => cases h
  | cons t ordering ih =>
      cases ha with
      | nil => cases h
      | cons ha has =>
          cases hb with
          | cons hb hbs =>
              rw [List.map_cons, orderAll, Ordering.then_eq_lt] at h
              rcases h with h | ⟨heq, h⟩
              · refine .here (fun hsame => ?_) (before_of_order ha hb h)
                rw [(order_eq_eq ha hb).mpr hsame] at h
                cases h
              · obtain rfl := (order_eq_eq ha hb).mp heq
                exact .later (ih has hbs h)

/-! ### Keys by the values on their rows -/

/-- Whether a key comes before another by the values that terms have on their rows. -/
def lessBy (terms : List SortTerm) (values : Value → List Value) (pk pk' : Value) : Bool :=
  orderAll terms (values pk) (values pk') == .lt

variable {pks : List Value} {values : Value → List Value}

theorem coherent_lessBy (hterms : ∀ pk ∈ pks, terms.length = (values pk).length)
    (hkinds : ∀ pk ∈ pks, List.Forall₂ Value.NullOrOf kinds (values pk)) : Coherent (lessBy terms values) pks where
  asymm pk _ pk' _ h := by
    rw [lessBy, beq_iff_eq] at h
    rw [lessBy, ← orderAll_swap, h]
    rfl
  handedOn pk hpk pk' hpk' pk'' hpk'' h h' := by
    rw [lessBy, beq_eq_false_iff_ne] at h h' ⊢
    exact orderAll_ne_lt_trans ((hterms pk hpk).trans (hkinds pk hpk).length_eq.symm) (hkinds pk hpk)
      (hkinds pk' hpk') (hkinds pk'' hpk'') h h'

/-- Of two sorted keys the first is less, or they are not told apart and stand as they stood. -/
theorem pairwise_sorted (hterms : ∀ pk ∈ pks, terms.length = (values pk).length)
    (hkinds : ∀ pk ∈ pks, List.Forall₂ Value.NullOrOf kinds (values pk)) :
    (stableSort (lessBy terms values) pks).Pairwise fun pk pk' =>
      orderAll terms (values pk) (values pk') = .lt ∨ values pk = values pk' ∧ [pk, pk'].Sublist pks := by
  have hc := coherent_lessBy hterms hkinds
  refine List.pairwise_iff_forall_sublist.mpr fun {pk pk'} hpair => ?_
  have hmem : ∀ x ∈ [pk, pk'], x ∈ pks := fun x hx => (stableSort_perm _ pks).subset (hpair.subset hx)
  have hpk := hmem pk (by simp)
  have hpk' := hmem pk' (by simp)
  have hnot : lessBy terms values pk' pk = false :=
    List.pairwise_iff_forall_sublist.mp (pairwise_stableSort hc) hpair
  rw [lessBy, beq_eq_false_iff_ne, ← orderAll_swap] at hnot
  rcases horder : orderAll terms (values pk) (values pk') with - | - | -
  · exact .inl rfl
  · have hsame : values pk = values pk' :=
      (orderAll_eq_eq ((hterms pk hpk).trans (hkinds pk hpk).length_eq.symm) (hkinds pk hpk) (hkinds pk' hpk')).mp
        horder
    -- The keys with these values are a part of the list whose elements are not told apart.
    have hpart := filter_stableSort_eq_filter (fun x => decide (values x = values pk)) hc fun a ha b _ ha' hb' => by
      rw [decide_eq_true_eq] at ha' hb'
      rw [lessBy, (orderAll_eq_eq ((hterms a ha).trans (hkinds a ha).length_eq.symm) (hkinds a ha)
        (by rw [hb', ← ha']; exact hkinds a ha)).mpr (ha'.trans hb'.symm)]
      rfl
    have hkept := hpair.filter fun x => decide (values x = values pk)
    rw [hpart] at hkept
    refine .inr ⟨hsame, ?_⟩
    simpa [hsame] using hkept.trans List.filter_sublist
  · rw [horder] at hnot
    exact absurd rfl hnot

end SortTerm

namespace Store

variable {reg : Registry} {st : Store} {qs : Queryset} {terms : List SortTerm} {pks : List Value}
  {holds : Value → Bool} {values : Value → List Value} {kinds : List SortKind}

theorem sortTerms_eq_map (m : Model) (named : Named) (ordering : List OrderTerm) :
    Expression.sortTerms reg st m named ordering =
      ordering.map fun t => ⟨t.expr.eval reg st m named, t.descending, t.nulls⟩ := by
  induction ordering with
  | nil => rfl
  | cons t rest ih =>
      cases t
      rw [Expression.sortTerms, ih]
      rfl

/-- Keys on whose rows every term has a value are sorted by these values. -/
theorem sortKeys_eq_stableSort (hvalues : ∀ pk ∈ pks, (terms.mapM fun t => t.value pk) = .ok (values pk)) :
    sortKeys terms pks = .ok (stableSort (SortTerm.lessBy terms values) pks) := by
  rw [sortKeys]
  split
  · rename_i hempty
    rw [stableSort_eq_self fun _ _ _ _ => by rw [List.isEmpty_iff.mp hempty]; rfl]
  · have hkeyed : (pks.mapM fun pk => do return (← terms.mapM fun t => t.value pk, pk)) =
        (.ok (pks.map fun pk => (values pk, pk)) : Outcome (List (List Value × Value))) :=
      Outcome.mapM_ok fun pk hpk => by
        rw [hvalues pk hpk]
        rfl
    rw [hkeyed, Outcome.ok_bind, stableSort_map, List.map_map]
    exact congrArg Except.ok (List.map_id _)

/-- The window of the keys that pass the condition, sorted by the values of the terms on their rows. -/
theorem select_eq_window (hnone : qs.none = false)
    (hholds : ∀ pk ∈ st.keys qs.model,
      passes reg st qs.model (Expression.annotationsOf reg st qs) qs.condition pk = .ok (holds pk))
    (hvalues : ∀ pk ∈ st.keys qs.model, holds pk → (qs.ordering.mapM fun t =>
      t.expr.eval reg st qs.model (Expression.annotationsOf reg st qs) pk) = .ok (values pk)) :
    select reg st qs = .ok (window qs.offset qs.limit (stableSort (SortTerm.lessBy
      (Expression.sortTerms reg st qs.model (Expression.annotationsOf reg st qs) qs.ordering) values)
      ((st.keys qs.model).filter holds))) := by
  rw [select_eq]
  split
  · rename_i hempty
    have hlimit : qs.limit = some 0 := by simpa [Queryset.isNone, hnone] using hempty
    simp [hlimit, window]
  · rw [selectKeys_unlinked, Outcome.filterM_ok hholds, Outcome.ok_bind, sortKeys_eq_stableSort fun pk hpk => ?_,
      Outcome.ok_bind]
    · rfl
    · obtain ⟨hmem, hpasses⟩ := List.mem_filter.mp hpk
      rw [sortTerms_eq_map, List.mapM_map]
      exact hvalues pk hmem hpasses

/-! ## Whether a queryset has a row -/

theorem window_isEmpty_eq {rows rows' : List Value} (hlength : rows.length = rows'.length) (offset : Nat)
    (limit : Option Nat) : (window offset limit rows).isEmpty = (window offset limit rows').isEmpty := by
  unfold window
  rw [Bool.eq_iff_iff, List.isEmpty_iff_length_eq_zero, List.isEmpty_iff_length_eq_zero]
  split <;> simp [hlength]

/-- The first of the rows in a window tells whether there is one. -/
theorem length_window_take_pos (offset : Nat) {limit : Option Nat} (hlimit : limit ≠ some 0) (rows : List Value) :
    decide ((window offset (Queryset.tighter limit (some 1)) rows).length > 0) =
      !(window offset limit rows).isEmpty := by
  have hiff : (window offset (Queryset.tighter limit (some 1)) rows).length > 0 ↔
      (window offset limit rows).length ≠ 0 := by
    cases limit with
    | none =>
        simp [window, Queryset.tighter]
        omega
    | some n =>
        have hn : n ≠ 0 := fun h => hlimit (h ▸ rfl)
        simp [window, Queryset.tighter]
        omega
  rw [Bool.eq_iff_iff, decide_eq_true_iff, hiff, Bool.not_eq_true', Bool.eq_false_iff, Ne, Ne,
    List.isEmpty_iff_length_eq_zero]

/-- Asked for a row, a database that selects rows without their order tells whether there is one. -/
theorem runJob_any {w : World} {name : String} {db : Database} {rows : List Value}
    (hdb : w.databases.lookup name = some db) (hnone : qs.none = false)
    (h : select w.registry db.store (qs.unordered.take 1) =
      .ok (window qs.offset (Queryset.tighter qs.limit (some 1)) rows)) :
    (w.runJob (Job.any name qs)).1 = .ok !(window qs.offset qs.limit rows).isEmpty := by
  rw [Job.any]
  split
  · rename_i hempty
    have hlimit : qs.limit = some 0 := by simpa [Queryset.isNone, hnone] using hempty
    rw [hlimit]
    simp [window]
    rfl
  · rename_i hsome
    have hlimit : qs.limit ≠ some 0 := fun hlimit => hsome (by simp [Queryset.isNone, hlimit])
    have hcount : (w.runJob (Job.count name (qs.unordered.take 1))).1 =
        .ok (window qs.offset (Queryset.tighter qs.limit (some 1)) rows).length := by
      show (w.perform name (.count (qs.unordered.take 1))).1 = _
      rw [World.perform, hdb]
      exact Database.perform_count h w.clock
    rw [World.runJob_bind_ok hcount]
    exact congrArg Except.ok (length_window_take_pos qs.offset hlimit rows)

/-- The first row of those that pass, as they stand in the table. -/
theorem select_unordered_take (hnone : qs.none = false) (hoffset : qs.offset ≤ maxCount)
    (hholds : ∀ pk ∈ st.keys qs.model,
      passes reg st qs.model (Expression.annotationsOf reg st qs) qs.condition pk = .ok (holds pk)) :
    select reg st (qs.unordered.take 1) =
      .ok (window qs.offset (Queryset.tighter qs.limit (some 1)) ((st.keys qs.model).filter holds)) := by
  obtain ⟨m, condition, annotations, ordering, offset, limit, nothing, database⟩ := qs
  have hlimit : Queryset.tighter (limit.map (· - 0)) (some 1) = Queryset.tighter limit (some 1) := by
    cases limit <;> rfl
  refine Eq.trans (select_eq_window hnone hholds fun _ _ _ => (rfl : _ = Except.ok [])) ?_
  rw [stableSort_eq_self]
  · exact congrArg Except.ok (congrArg₂ (window · · _) (min_eq_left hoffset) hlimit)
  · exact fun _ _ _ _ => rfl

/-! ## The rows of a queryset in its order -/

/-- A queryset selects the window of the rows that pass its condition, each two of them in the order of the first
term that tells them apart and as in the table where none does. As many are counted, and there is a row
if the window has one. -/
theorem select_sorted (hnone : qs.none = false)
    (hholds : ∀ pk ∈ st.keys qs.model,
      passes reg st qs.model (Expression.annotationsOf reg st qs) qs.condition pk = .ok (holds pk))
    (hvalues : ∀ pk ∈ st.keys qs.model, holds pk → (qs.ordering.mapM fun t =>
      t.expr.eval reg st qs.model (Expression.annotationsOf reg st qs) pk) = .ok (values pk))
    (hkinds : ∀ pk ∈ st.keys qs.model, holds pk → List.Forall₂ Value.NullOrOf kinds (values pk)) :
    ∃ rows, rows.Perm ((st.keys qs.model).filter holds) ∧
      (rows.Pairwise fun pk pk' => OrderTerm.Precedes qs.ordering (values pk) (values pk') ∨
        values pk = values pk' ∧ [pk, pk'].Sublist (st.keys qs.model)) ∧
      select reg st qs = .ok (window qs.offset qs.limit rows) ∧
      (∀ (db : Database) (now : Instant), db.store = st →
        (db.perform reg now (.count qs)).1 = .ok (window qs.offset qs.limit rows).length) ∧
      (qs.offset ≤ maxCount → ∀ (w : World) (name : String) (db : Database), w.registry = reg →
        w.databases.lookup name = some db → db.store = st →
        (w.runJob (Job.any name qs)).1 = .ok !(window qs.offset qs.limit rows).isEmpty) := by
  have hpassing : ∀ pk ∈ (st.keys qs.model).filter holds, pk ∈ st.keys qs.model ∧ holds pk :=
    fun pk hpk => List.mem_filter.mp hpk
  have hperm := stableSort_perm (SortTerm.lessBy (Expression.sortTerms reg st qs.model
    (Expression.annotationsOf reg st qs) qs.ordering) values) ((st.keys qs.model).filter holds)
  have hselect := select_eq_window hnone hholds hvalues
  refine ⟨_, hperm, ?_, hselect, ?_, ?_⟩
  · have hterms : ∀ pk ∈ (st.keys qs.model).filter holds, (Expression.sortTerms reg st qs.model
        (Expression.annotationsOf reg st qs) qs.ordering).length = (values pk).length := fun pk hpk => by
      rw [sortTerms_eq_map, List.length_map]
      exact (Outcome.mapM_eq_ok.mp (hvalues pk (hpassing pk hpk).1 (hpassing pk hpk).2)).length_eq
    have hrows : ∀ pk ∈ (st.keys qs.model).filter holds, List.Forall₂ Value.NullOrOf kinds (values pk) :=
      fun pk hpk => hkinds pk (hpassing pk hpk).1 (hpassing pk hpk).2
    refine (SortTerm.pairwise_sorted hterms hrows).imp_of_mem fun {pk pk'} hpk hpk' h =>
      h.imp (fun hless => ?_) fun h => ⟨h.1, h.2.trans List.filter_sublist⟩
    rw [sortTerms_eq_map] at hless
    exact SortTerm.precedes_of_orderAll (hrows pk (hperm.subset hpk)) (hrows pk' (hperm.subset hpk')) hless
  · rintro db now rfl
    exact Database.perform_count hselect now
  · rintro hoffset w name db rfl hdb rfl
    -- The sort leaves the number of the rows, and with it whether the window has one.
    rw [runJob_any hdb hnone (select_unordered_take hnone hoffset hholds)]
    exact congrArg (fun empty => Except.ok !empty) (window_isEmpty_eq hperm.length_eq.symm ..)

/-! ### Articles by author -/

open Registry (built modelOf writers writings)

/-- Articles of fewer than 500 words, those of no author last, and the longest of an author first; but one of
them. -/
def laterArticles : Queryset :=
  { Queryset.all (modelOf (built writers) "article") with
    condition := some (.test "words" (.lt (.int 500)))
    ordering := [⟨.column "author", false, .last⟩, ⟨.column "words", true, .least⟩]
    offset := 1
    limit := some 2 }

/-- The author and the words of an article. -/
def authorAndWords (pk : Value) : List Value :=
  if pk = .int 1 then [.int 1, .int 300] else if pk = .int 2 then [.int 1, .int 500] else [.null, .int 40]

theorem laterArticles_sorted :
    laterArticles.none = false ∧
      (∀ pk ∈ writings.keys laterArticles.model, passes (built writers) writings laterArticles.model
        (Expression.annotationsOf (built writers) writings laterArticles) laterArticles.condition pk =
          .ok (pk != .int 2)) ∧
      (∀ pk ∈ writings.keys laterArticles.model, pk != .int 2 → (laterArticles.ordering.mapM fun t =>
        t.expr.eval (built writers) writings laterArticles.model
          (Expression.annotationsOf (built writers) writings laterArticles) pk) = .ok (authorAndWords pk)) ∧
      (∀ pk ∈ writings.keys laterArticles.model, pk != .int 2 →
        List.Forall₂ Value.NullOrOf [SortKind.int, SortKind.int] (authorAndWords pk)) ∧
      ∃ rows, rows.Perm [.int 1, .int 3] ∧
        (rows.Pairwise fun pk pk' => OrderTerm.Precedes laterArticles.ordering (authorAndWords pk)
          (authorAndWords pk') ∨
            authorAndWords pk = authorAndWords pk' ∧ [pk, pk'].Sublist (writings.keys laterArticles.model)) ∧
        select (built writers) writings laterArticles = .ok (window 1 (some 2) rows) ∧
        (∀ (db : Database) (now : Instant), db.store = writings →
          (db.perform (built writers) now (.count laterArticles)).1 = .ok (window 1 (some 2) rows).length) ∧
        (1 ≤ maxCount → ∀ (w : World) (name : String) (db : Database), w.registry = built writers →
          w.databases.lookup name = some db → db.store = writings →
          (w.runJob (Job.any name laterArticles)).1 = .ok !(window 1 (some 2) rows).isEmpty) := by
  have hkeys : writings.keys laterArticles.model = [.int 1, .int 2, .int 3] := rfl
  have hnone : laterArticles.none = false := rfl
  have hholds : ∀ pk ∈ writings.keys laterArticles.model, passes (built writers) writings laterArticles.model
      (Expression.annotationsOf (built writers) writings laterArticles) laterArticles.condition pk =
        .ok (pk != .int 2) := by
    rw [hkeys]
    simp only [List.forall_mem_cons]
    exact ⟨rfl, rfl, rfl, fun _ h => nomatch h⟩
  have hvalues : ∀ pk ∈ writings.keys laterArticles.model, pk != .int 2 → (laterArticles.ordering.mapM fun t =>
      t.expr.eval (built writers) writings laterArticles.model
        (Expression.annotationsOf (built writers) writings laterArticles) pk) = .ok (authorAndWords pk) := by
    rw [hkeys]
    simp only [List.forall_mem_cons]
    exact ⟨fun _ => rfl, fun _ => rfl, fun _ => rfl, fun _ h => nomatch h⟩
  have hkinds : ∀ pk ∈ writings.keys laterArticles.model, pk != .int 2 →
      List.Forall₂ Value.NullOrOf [SortKind.int, SortKind.int] (authorAndWords pk) := by
    intro pk _ _
    unfold authorAndWords
    split
    · exact .cons (.inr (.int 1)) (.cons (.inr (.int 300)) .nil)
    · split
      · exact .cons (.inr (.int 1)) (.cons (.inr (.int 500)) .nil)
      · exact .cons (.inl rfl) (.cons (.inr (.int 40)) .nil)
  exact ⟨hnone, hholds, hvalues, hkinds, select_sorted hnone hholds hvalues hkinds⟩

end Store

end RecordMapper
