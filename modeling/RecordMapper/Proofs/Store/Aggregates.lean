import Mathlib.Algebra.Order.BigOperators.Group.List
import Mathlib.Algebra.Order.Group.Nat
import Mathlib.Algebra.Order.Ring.Int
import Mathlib.Data.List.Nodup
import RecordMapper.Store.Scalar
import RecordMapper.Proofs.Outcomes
import RecordMapper.Proofs.Value.Plain

/-!
# Aggregates — one value of many, in whatever order they come

An aggregate sees the values that are not null. A count is the same for
every order of them. So are a sum, a mean and an extreme of integers
whose magnitudes add up to less than 2^63, where no partial sum leaves
the word (`aggregate_perm`).
-/

namespace RecordMapper

open scoped List

/-! ## Repetitions -/

private theorem foldl_distinct {α : Type} [BEq α] [LawfulBEq α] (xs acc : List α) (hacc : acc.Nodup) :
    ∃ more : List α, more <+ xs ∧
      xs.foldl (fun acc x => if acc.contains x then acc else acc ++ [x]) acc = acc ++ more ∧
      (acc ++ more).Nodup ∧ ∀ x ∈ xs, x ∈ acc ++ more := by
  induction xs generalizing acc with
  | nil => exact ⟨[], .slnil, by simp, by simpa using hacc, by simp⟩
  | cons x rest ih =>
      rw [List.foldl_cons]
      by_cases hx : x ∈ acc
      · rw [if_pos (List.contains_iff_mem.mpr hx)]
        obtain ⟨more, hsub, heq, hd, hall⟩ := ih acc hacc
        refine ⟨more, hsub.cons x, heq, hd, fun y hy => ?_⟩
        rcases List.mem_cons.mp hy with rfl | hy
        · exact List.mem_append_left more hx
        · exact hall y hy
      · rw [if_neg (by simpa using hx)]
        have hacc' : (acc ++ [x]).Nodup := by
          refine List.nodup_append.mpr ⟨hacc, List.nodup_singleton x, fun y hy z hz he => hx ?_⟩
          rwa [← List.mem_singleton.mp hz, ← he]
        obtain ⟨more, hsub, heq, hd, hall⟩ := ih (acc ++ [x]) hacc'
        rw [List.append_assoc] at heq hd hall
        refine ⟨x :: more, hsub.cons_cons x, heq, hd, fun y hy => ?_⟩
        rcases List.mem_cons.mp hy with rfl | hy
        · simp
        · exact hall y hy

theorem distinctOf_sublist {α : Type} [BEq α] [LawfulBEq α] (xs : List α) : distinctOf xs <+ xs := by
  obtain ⟨more, hsub, heq, _⟩ := foldl_distinct xs [] List.nodup_nil
  rwa [distinctOf, heq]

theorem nodup_distinctOf {α : Type} [BEq α] [LawfulBEq α] (xs : List α) : (distinctOf xs).Nodup := by
  obtain ⟨more, _, heq, hd, _⟩ := foldl_distinct xs [] List.nodup_nil
  rwa [distinctOf, heq]

theorem mem_distinctOf {α : Type} [BEq α] [LawfulBEq α] {xs : List α} {x : α} :
    x ∈ distinctOf xs ↔ x ∈ xs := by
  constructor
  · exact fun h => (distinctOf_sublist xs).subset h
  · intro h
    obtain ⟨more, _, heq, _, hall⟩ := foldl_distinct xs [] List.nodup_nil
    rw [distinctOf, heq]
    exact hall x h

theorem distinctOf_perm {α : Type} [BEq α] [LawfulBEq α] {xs ys : List α} (h : xs ~ ys) :
    distinctOf xs ~ distinctOf ys := by
  rw [List.perm_ext_iff_of_nodup (nodup_distinctOf xs) (nodup_distinctOf ys)]
  intro x
  rw [mem_distinctOf, mem_distinctOf, h.mem_iff]

namespace Scalar

/-! ## Integers that add up within a word -/

/-- Integers whose magnitudes add up to less than 2^63. -/
def Addable (vs : List Value) : Prop :=
  (∀ v ∈ vs, v.asInt?.isSome) ∧ ((vs.filterMap Value.asInt?).map fun n => n.toInt.natAbs).sum < 2 ^ 63

theorem eq_map_int {vs : List Value} (h : ∀ v ∈ vs, v.asInt?.isSome) :
    vs = (vs.filterMap Value.asInt?).map .int := by
  induction vs with
  | nil => rfl
  | cons v rest ih =>
      have hrest := ih fun w hw => h w (List.mem_cons_of_mem v hw)
      have hv := h v List.mem_cons_self
      cases v with
      | int n => exact congrArg (Value.int n :: ·) hrest
      | _ => exact absurd hv Bool.false_ne_true

theorem Addable.perm {xs ys : List Value} (h : Addable xs) (hp : xs ~ ys) : Addable ys := by
  refine ⟨fun v hv => h.1 v (hp.mem_iff.mpr hv), ?_⟩
  rw [← ((hp.filterMap Value.asInt?).map fun n => n.toInt.natAbs).sum_eq]
  exact h.2

theorem Addable.sublist {xs ys : List Value} (h : Addable ys) (hs : xs <+ ys) : Addable xs := by
  refine ⟨fun v hv => h.1 v (hs.subset hv), Nat.lt_of_le_of_lt ?_ h.2⟩
  exact ((hs.filterMap Value.asInt?).map fun n => n.toInt.natAbs).sum_le_sum fun n _ => Nat.zero_le n

/-- No partial sum of such integers leaves the word. -/
theorem sumInts_eq (start : Int64) {ns : List Int64}
    (h : start.toInt.natAbs + (ns.map fun n => n.toInt.natAbs).sum < 2 ^ 63) :
    ∃ total, sumInts start (ns.map .int) = .ok total ∧
      total.toInt = start.toInt + (ns.map Int64.toInt).sum := by
  induction ns generalizing start with
  | nil => exact ⟨start, rfl, by simp⟩
  | cons n rest ih =>
      simp only [List.map_cons, List.sum_cons] at h
      -- The magnitudes that are left bound every sum on the way.
      have hfits : FitsWord (start.toInt + n.toInt) := by constructor <;> omega
      have hword : int64? (start.toInt + n.toInt) = some (Int64.ofInt (start.toInt + n.toInt)) := if_pos hfits
      have hnext := toInt_of_int64? hword
      obtain ⟨total, htotal, hsum⟩ := ih (Int64.ofInt (start.toInt + n.toInt)) (by rw [hnext]; omega)
      refine ⟨total, ?_, ?_⟩
      · rw [List.map_cons, sumInts]
        simp only [Value.asInt?, Option.getD_some, hword]
        exact htotal
      · rw [hsum, hnext, List.map_cons, List.sum_cons]
        omega

theorem sum_perm {xs ys : List Value} (h : Addable xs) (hp : xs ~ ys) : sum xs = sum ys := by
  have h' := h.perm hp
  have hperm := hp.filterMap Value.asInt?
  have hzero : (0 : Int64).toInt.natAbs = 0 := by decide
  obtain ⟨total, htotal, hval⟩ := sumInts_eq 0 (by rw [hzero, Nat.zero_add]; exact h.2)
  obtain ⟨total', htotal', hval'⟩ := sumInts_eq 0 (by rw [hzero, Nat.zero_add]; exact h'.2)
  rw [← eq_map_int h.1] at htotal
  rw [← eq_map_int h'.1] at htotal'
  have hsame : total = total' := by
    rw [← Int64.toInt_inj, hval, hval', (hperm.map Int64.toInt).sum_eq]
  rw [sum, sum, if_pos (List.all_eq_true.mpr h.1), if_pos (List.all_eq_true.mpr h'.1), htotal, htotal', hsame]

/-! ## Extremes -/

section Extremes

variable {wanted : Ordering} (hw : wanted ≠ .eq)

include hw

private theorem compare_ne_trans {a b c : Int} (hab : compare a b ≠ wanted) (hbc : compare b c ≠ wanted) :
    compare a c ≠ wanted := by
  cases wanted with
  | eq => exact absurd rfl hw
  | lt =>
      rw [Ne, Int.compare_eq_lt] at hab hbc ⊢
      omega
  | gt =>
      rw [Ne, Int.compare_eq_gt] at hab hbc ⊢
      omega

private theorem compare_ne_of_eq {a b : Int} (hab : compare a b = wanted) : compare b a ≠ wanted := by
  cases wanted with
  | eq => exact absurd rfl hw
  | lt =>
      rw [Int.compare_eq_lt] at hab
      rw [Ne, Int.compare_eq_lt]
      omega
  | gt =>
      rw [Int.compare_eq_gt] at hab
      rw [Ne, Int.compare_eq_gt]
      omega

private theorem eq_of_compare_ne {a b : Int} (hab : compare a b ≠ wanted) (hba : compare b a ≠ wanted) :
    a = b := by
  cases wanted with
  | eq => exact absurd rfl hw
  | lt =>
      rw [Ne, Int.compare_eq_lt] at hab hba
      omega
  | gt =>
      rw [Ne, Int.compare_eq_gt] at hab hba
      omega

/-- The integer kept from several is one of them, and none comes before it in the wanted way. -/
private theorem foldl_extreme (ns : List Int64) (best : Int64) :
    ∃ k ∈ best :: ns,
      (ns.map Value.int).foldl (fun best w => if w.compare? best == some wanted then w else best) (.int best) =
        .int k ∧
      ∀ n ∈ best :: ns, compare n.toInt k.toInt ≠ wanted := by
  induction ns generalizing best with
  | nil =>
      refine ⟨best, List.mem_cons_self, rfl, fun n hn => ?_⟩
      rw [List.mem_singleton.mp hn]
      intro h
      exact compare_ne_of_eq hw h h
  | cons n rest ih =>
      rw [List.map_cons, List.foldl_cons]
      by_cases hn : compare n.toInt best.toInt = wanted
      · obtain ⟨k, hk, hfold, hall⟩ := ih n
        have htest : ((Value.int n).compare? (.int best) == some wanted) = true := by
          simpa [Value.compare?] using hn
        rw [if_pos htest]
        refine ⟨k, List.mem_cons_of_mem best hk, hfold, fun x hx => ?_⟩
        rcases List.mem_cons.mp hx with rfl | hx
        · exact compare_ne_trans hw (compare_ne_of_eq hw hn) (hall n List.mem_cons_self)
        · exact hall x hx
      · obtain ⟨k, hk, hfold, hall⟩ := ih best
        have htest : ((Value.int n).compare? (.int best) == some wanted) = false := by
          simpa [Value.compare?] using hn
        rw [htest, if_neg Bool.false_ne_true]
        have hkept : best ∈ best :: rest := List.mem_cons_self
        refine ⟨k, ?_, hfold, fun x hx => ?_⟩
        · rcases List.mem_cons.mp hk with rfl | hk
          · exact List.mem_cons_self
          · exact List.mem_cons_of_mem best (List.mem_cons_of_mem n hk)
        · rcases List.mem_cons.mp hx with rfl | hx
          · exact hall x hkept
          · rcases List.mem_cons.mp hx with rfl | hx
            · exact compare_ne_trans hw hn (hall best hkept)
            · exact hall x (List.mem_cons_of_mem best hx)

theorem extreme_perm {xs ys : List Value} (h : Addable xs) (hp : xs ~ ys) :
    extreme wanted xs = extreme wanted ys := by
  have h' := h.perm hp
  have hperm := hp.filterMap Value.asInt?
  rw [eq_map_int h.1, eq_map_int h'.1]
  generalize xs.filterMap Value.asInt? = ns at hperm
  generalize ys.filterMap Value.asInt? = ks at hperm
  cases ns with
  | nil => rw [hperm.symm.eq_nil]
  | cons n ns =>
      cases ks with
      | nil => cases hperm.eq_nil
      | cons k ks =>
          obtain ⟨x, hx, hxfold, hxall⟩ := foldl_extreme hw ns n
          obtain ⟨y, hy, hyfold, hyall⟩ := foldl_extreme hw ks k
          -- Each of the two is among the other's integers, so neither comes before the other.
          have hxy : x.toInt = y.toInt :=
            eq_of_compare_ne hw (hyall x (hperm.mem_iff.mp hx)) (hxall y (hperm.mem_iff.mpr hy))
          rw [List.map_cons, List.map_cons, extreme, extreme, hxfold, hyfold, Int64.toInt_inj.mp hxy]

end Extremes

/-! ## Aggregates -/

theorem combine_perm {func : Aggregate} {xs ys : List Value} (hp : xs ~ ys)
    (h : func ≠ .count → Addable xs) : combine func xs = combine func ys := by
  have hempty : xs.isEmpty = ys.isEmpty := by
    rw [Bool.eq_iff_iff, List.isEmpty_iff_length_eq_zero, List.isEmpty_iff_length_eq_zero, hp.length_eq]
  unfold combine
  rw [hempty]
  split
  · rfl
  · cases func with
    | count => rw [hp.length_eq]
    | sum => exact sum_perm (h (by decide)) hp
    | avg => simp only [sum_perm (h (by decide)) hp, hp.length_eq]
    | min => exact congrArg Except.ok (extreme_perm (by decide) (h (by decide)) hp)
    | max => exact congrArg Except.ok (extreme_perm (by decide) (h (by decide)) hp)

/-- The order of the values does not matter to a count, nor to the other aggregates of integers that add
up within a word. -/
theorem aggregate_perm {func : Aggregate} {xs ys : List Value} (hp : given xs ~ given ys)
    (h : func ≠ .count → Addable (given xs)) (distinct : Bool) :
    aggregate func xs distinct = aggregate func ys distinct := by
  cases distinct with
  | false => exact combine_perm hp h
  | true =>
      refine combine_perm (distinctOf_perm hp) fun hfunc => ?_
      exact (h hfunc).sublist (distinctOf_sublist _)

/-! ## Aggregates of what is collected from rows -/

section Collected

variable {α : Type} {l l' : List α} {f f' : α → Outcome (List Value)} {g : α → List Value}
  {func : Aggregate} {distinct : Bool} {v : Value}

/-- What two ways of collecting find in a row is the same up to null. -/
private theorem exists_same {a : α} (h : (f a).map given = (f' a).map given) {vs : List Value}
    (hvs : f a = .ok vs) : ∃ us, f' a = .ok us ∧ given us = given vs := by
  rw [hvs, Outcome.map_ok] at h
  exact Outcome.map_eq_ok.mp h.symm

private theorem aggregate_collected (hp : l ~ l') (hf : ∀ a ∈ l, (f a).map given = (f' a).map given)
    (hg : ∀ a ∈ l, ∀ vs, f a = .ok vs → given vs <+ given (g a))
    (hadd : func ≠ .count → Addable (given (l.flatMap g)))
    (h : (l.mapM f >>= fun collected => aggregate func collected.flatten distinct) = .ok v) :
    (l'.mapM f' >>= fun collected => aggregate func collected.flatten distinct) = .ok v := by
  obtain ⟨vss, hvss, h⟩ := Outcome.bind_eq_ok.mp h
  have hrow : ∀ a ∈ l, ∃ us, f' a = .ok us ∧ given us = given ((f a).toOption.getD []) := by
    intro a ha
    obtain ⟨vs, _, hvs⟩ := Outcome.exists_of_mapM hvss ha
    obtain ⟨us, hus, hsame⟩ := exists_same (hf a ha) hvs
    exact ⟨us, hus, by rw [hsame, hvs]; rfl⟩
  obtain ⟨uss, huss, hgiven⟩ := Outcome.exists_mapM hrow
  obtain ⟨uss', huss', hperm⟩ := Outcome.mapM_perm hp huss
  have hown : List.Forall₂ (fun a vs => given vs = given ((f a).toOption.getD [])) l vss :=
    (Outcome.mapM_eq_ok.mp hvss).imp fun a vs hvs => by rw [hvs]; rfl
  have hsame : given vss.flatten ~ given uss'.flatten := by
    rw [given_flatten hown, ← given_flatten hgiven]
    exact hperm.flatten.filter _
  have hsum : func ≠ .count → Addable (given vss.flatten) := fun hfunc =>
    (hadd hfunc).sublist (given_flatten_sublist (Outcome.mapM_forall₂ hvss hg))
  rw [huss', Outcome.ok_bind, ← aggregate_perm hsame hsum]
  exact h

/-- Two ways of collecting that find the same in every row make the same aggregate, in whatever order the
rows come. -/
theorem aggregate_collected_iff (hp : l ~ l') (hf : ∀ a ∈ l, (f a).map given = (f' a).map given)
    (hg : ∀ a ∈ l, ∀ vs, f a = .ok vs → given vs <+ given (g a))
    (hadd : func ≠ .count → Addable (given (l.flatMap g))) :
    (l.mapM f >>= fun collected => aggregate func collected.flatten distinct) = .ok v ↔
      (l'.mapM f' >>= fun collected => aggregate func collected.flatten distinct) = .ok v := by
  have hf' : ∀ a ∈ l', (f' a).map given = (f a).map given := fun a ha => (hf a (hp.mem_iff.mpr ha)).symm
  have hg' : ∀ a ∈ l', ∀ us, f' a = .ok us → given us <+ given (g a) := by
    intro a ha us hus
    obtain ⟨vs, hvs, hsame⟩ := exists_same (hf' a ha) hus
    rw [← hsame]
    exact hg a (hp.mem_iff.mpr ha) vs hvs
  have hadd' : func ≠ .count → Addable (given (l'.flatMap g)) := fun hfunc =>
    (hadd hfunc).perm ((hp.flatMap_right g).filter _)
  exact ⟨aggregate_collected hp hf hg hadd, aggregate_collected hp.symm hf' hg' hadd'⟩

end Collected

end Scalar

end RecordMapper
