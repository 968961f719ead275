import Mathlib.Data.List.Perm.Basic
import RecordMapper.Proofs.Store.Hops
import RecordMapper.Proofs.Store.Selection

/-!
# Trails — where paths lead, and the way back

The `trail` of a route collects hop by hop what following a path
collects, with nulls dropped on the way (`pathValues_eq_trail`). Read
backwards a chain of relations is a chain again, and its trail leads
back (`exists_trail_back`): so the rows that reach a key over the way
back are the rows that the way there reaches, and up to the first
to-many relation each of them is reached once (`trail_perm_reaching`).
-/

namespace RecordMapper.Store

open RecordMapper.Registry
open scoped List

/-- What steps lead to from a value. -/
def trail (reg : Registry) (st : Store) : List PathStep → Value → List Value
  | [], v => [v]
  | s :: rest, v => (hop reg st s v).flatMap (trail reg st rest)

variable {reg : Registry} {st : Store} {m t : Model} {steps before back : List PathStep} {s : PathStep}
  {a b v : Value} {names : List String}

theorem trail_append (xs ys : List PathStep) (v : Value) :
    trail reg st (xs ++ ys) v = (trail reg st xs v).flatMap (trail reg st ys) := by
  induction xs generalizing v with
  | nil => simp [trail]
  | cons x rest ih =>
      rw [List.cons_append, trail, trail, List.flatMap_assoc]
      exact List.flatMap_congr fun w _ => ih w

theorem trail_singleton (s : PathStep) : trail reg st [s] = hop reg st s := by
  funext v
  simp [trail]

theorem trail_null (hne : steps ≠ []) : trail reg st steps .null = [] := by
  cases steps with
  | nil => exact absurd rfl hne
  | cons s rest => rw [trail, hop_null, List.flatMap_nil]

/-! ## Following a path -/

/-- The first step from some rows, all at once. -/
theorem mapM_step (hn : Navigable reg) (hm : m ∈ reg.models) {f : Field} (hf : f ∈ m.localFields)
    {keys : List Value} (hk : ∀ k ∈ keys, k.isNull = false) :
    keys.mapM (step reg st m f) = .ok (keys.map (hop reg st ⟨m, f⟩)) :=
  Outcome.mapM_ok fun k hmem => step_eq_hop hn hm hf (hk k hmem)

theorem follow_last (hn : Navigable reg) (hm : m ∈ reg.models) {f : Field} (hf : f ∈ m.localFields)
    {name : String} (hfield : reg.field m name = .ok f) {keys : List Value}
    (hk : ∀ k ∈ keys, k.isNull = false) (start whole : String) :
    follow reg st start whole m keys [name] = .ok (keys.flatMap (trail reg st [⟨m, f⟩])) := by
  cases keys with
  | nil => rfl
  | cons k rest =>
      rw [follow, hfield, Outcome.ok_bind, mapM_step hn hm hf hk, Outcome.ok_bind]
      · rw [trail_singleton, List.flatMap_def]
        rfl
      · exact fun h => List.cons_ne_nil k rest h

/-- Following names from rows collects the trails of the steps they spell. -/
theorem follow_eq_trail (hn : Navigable reg) (hroute : Route reg m steps) (hne : steps ≠ [])
    (hspells : Spells reg names steps) {keys : List Value} (hk : ∀ k ∈ keys, k.isNull = false)
    (start whole : String) :
    follow reg st start whole m keys names = .ok (keys.flatMap (trail reg st steps)) := by
  induction hroute generalizing names keys with
  | nil => exact absurd rfl hne
  | last hm hf =>
      obtain ⟨name, _, hfield, hnil, rfl⟩ := List.forall₂_cons_right_iff.mp hspells
      obtain rfl := List.forall₂_nil_right_iff.mp hnil
      exact follow_last hn hm hf hfield hk start whole
  | @cons m next f rest hm hf hrel hnext hroute ih =>
      obtain ⟨name, names, hfield, hrest, rfl⟩ := List.forall₂_cons_right_iff.mp hspells
      cases rest with
      | nil =>
          obtain rfl := List.forall₂_nil_right_iff.mp hrest
          exact follow_last hn hm hf hfield hk start whole
      | cons s rest =>
          obtain ⟨name', names', _, _, rfl⟩ := List.forall₂_cons_right_iff.mp hrest
          cases keys with
          | nil => rfl
          | cons k keys =>
              -- Null leads nowhere from here, so dropping it drops nothing.
              have hnull : trail reg st (s :: rest) .null = [] := trail_null (List.cons_ne_nil s rest)
              have hgiven : ∀ v ∈ given ((k :: keys).flatMap (hop reg st ⟨m, f⟩)), v.isNull = false := by
                intro v hv
                exact Bool.eq_false_iff.mpr fun h => (mem_given.mp hv).2 (Value.isNull_iff.mp h)
              rw [follow, hfield, Outcome.ok_bind, mapM_step hn hm hf hk, Outcome.ok_bind]
              · simp only [hrel, if_true, hnext, Outcome.ok_bind]
                rw [← List.flatMap_def]
                refine (ih (List.cons_ne_nil s rest) hrest hgiven).trans ?_
                rw [flatMap_given hnull, List.flatMap_assoc]
                rfl
              · exact fun h => List.cons_ne_nil k keys h

theorem pathValues_eq_trail (hn : Navigable reg) (hroute : Route reg m steps) (hne : steps ≠ [])
    {path : String} (hspells : Spells reg (dottedNames path) steps) (ha : a.isNull = false) :
    pathValues reg st m a path = .ok (trail reg st steps a) := by
  have hk : ∀ k ∈ [a], k.isNull = false := by simpa using ha
  rw [pathValues, follow_eq_trail hn hroute hne hspells hk, List.flatMap_singleton]

/-! ## Keys along a chain -/

section Keys

variable (hn : Navigable reg) (hs : Intact reg st)

include hn hs

theorem mem_keys_of_mem_trail (hleads : Leads reg m steps t) (ha : a ∈ st.keys m)
    (hv : v ∈ trail reg st steps a) : v = .null ∨ v ∈ st.keys t := by
  induction hleads generalizing a with
  | nil =>
      rw [trail, List.mem_singleton] at hv
      exact .inr (hv ▸ ha)
  | @cons m next t f rest hm hf _ hnext hleads ih =>
      obtain ⟨c, hc, hv⟩ := List.mem_flatMap.mp hv
      rcases mem_keys_of_mem_hop hn hs hm hf hnext ha hc with rfl | hc
      · cases rest with
        | nil =>
            rw [trail, List.mem_singleton] at hv
            exact .inl hv
        | cons s rest =>
            rw [trail_null (List.cons_ne_nil s rest)] at hv
            cases hv
      · exact ih hc hv

theorem isPlain_of_mem_trail (hleads : Leads reg m steps t) (hm : m ∈ reg.models) (ha : a ∈ st.keys m)
    (hv : v ∈ trail reg st steps a) : v = .null ∨ v.isPlain := by
  rcases mem_keys_of_mem_trail hn hs hleads ha hv with hnull | hkey
  · exact .inl hnull
  · exact .inr (hs.plain t (hleads.mem_models hm) v hkey)

/-! ## The way back -/

/-- The other sides of a chain's relations, last first, are a chain that leads back. -/
theorem exists_trail_back (hm : m ∈ reg.models) (hleads : Leads reg m steps t) :
    ∃ back, Leads reg t back m ∧ back.length = steps.length ∧
      (steps.reverse.mapM fun s => s.field.type.reverseName?) = some (back.map fun s => s.field.name) ∧
      ∀ a ∈ st.keys m, ∀ b ∈ st.keys t, b ∈ trail reg st steps a ↔ a ∈ trail reg st back b := by
  induction hleads with
  | nil m =>
      refine ⟨[], .nil m, rfl, rfl, fun a _ b _ => ?_⟩
      rw [trail, trail, List.mem_singleton, List.mem_singleton]
      exact eq_comm
  | @cons m next t f rest hm hf hrel hnext hleads ih =>
      obtain ⟨back, hback, hlen, hnames, hiff⟩ := ih (mem_of_related hnext)
      obtain ⟨next', hm', g, hg, hrelated, hreturn, hname, hhop⟩ := exists_hop_back hn hs hm hf hrel
      obtain rfl : next = next' := Except.ok.inj (hnext.symm.trans hrelated)
      -- The way back ends with the hop that the way there starts with.
      have hlast : Leads reg next [⟨next, g⟩] m :=
        .cons hm' hg (isRelation_of_related hreturn) hreturn (.nil m)
      refine ⟨back ++ [⟨next, g⟩], hback.append hlast, by simp [hlen], ?_, ?_⟩
      · rw [List.reverse_cons, List.mapM_append, hnames]
        simp [hname]
      · intro a ha b hb
        rw [trail_append, trail_singleton, trail, List.mem_flatMap, List.mem_flatMap]
        -- The row in the middle is the same on both ways; null is none.
        constructor
        · rintro ⟨c, hc, hbc⟩
          rcases mem_keys_of_mem_hop hn hs hm hf hnext ha hc with rfl | hkey
          · have hb' : b ∈ trail reg st rest .null := hbc
            cases rest with
            | nil =>
                rw [trail, List.mem_singleton] at hb'
                exact absurd hb' (Value.ne_null_of_isPlain (hs.plain t (hleads.mem_models hm') b hb))
            | cons s rest =>
                rw [trail_null (List.cons_ne_nil s rest)] at hb'
                cases hb'
          · exact ⟨c, (hiff c hkey b hb).mp hbc, (hhop a ha c hkey).mp hc⟩
        · rintro ⟨c, hc, hac⟩
          rcases mem_keys_of_mem_trail hn hs hback hb hc with rfl | hkey
          · rw [hop_null] at hac
            cases hac
          · exact ⟨c, (hhop a ha c hkey).mpr hac, (hiff c hkey b hb).mpr hc⟩

end Keys

/-! ## Rows reached once -/

section Once

variable (hn : Navigable reg) (hs : Consistent reg st)

include hn hs

/-- Steps that are not to-many lead to at most one value. -/
theorem length_trail_le_one (hroute : Route reg m steps)
    (hsingle : ∀ s ∈ steps, s.field.type.isMany = false) (ha : a ∈ st.keys m) :
    (trail reg st steps a).length ≤ 1 := by
  induction hroute generalizing a with
  | nil => exact Nat.le_refl 1
  | last hm hf =>
      rw [trail_singleton]
      exact length_hop_le_one hn hs hm hf (hsingle _ List.mem_cons_self) ha
  | @cons m next f rest hm hf hrel hnext hroute ih =>
      have hrest : ∀ s ∈ rest, s.field.type.isMany = false := fun s hmem =>
        hsingle s (List.mem_cons_of_mem _ hmem)
      rw [trail]
      rcases hop_of_single hn hs hm hf (hsingle _ List.mem_cons_self) hnext ha with hhop | hhop | ⟨v, hv, hhop⟩
      · rw [hhop, List.flatMap_nil]
        exact Nat.zero_le 1
      · rw [hhop, List.flatMap_singleton]
        cases rest with
        | nil => exact Nat.le_refl 1
        | cons s rest =>
            rw [trail_null (List.cons_ne_nil s rest)]
            exact Nat.zero_le 1
      · rw [hhop, List.flatMap_singleton]
        exact ih hrest hv

/-- Up to its first to-many relation a chain reaches no row twice. -/
theorem nodup_trail (hleads : Leads reg m (before ++ [s]) t)
    (hsingle : ∀ s ∈ before, s.field.type.isMany = false) (ha : a ∈ st.keys m) :
    (given (trail reg st (before ++ [s]) a)).Nodup := by
  induction before generalizing m a with
  | nil =>
      cases hleads with
      | cons hm hf =>
          rw [List.nil_append, trail_singleton]
          exact nodup_hop hn hs hm hf ha
  | cons s' rest ih =>
      generalize hall : s' :: rest ++ [s] = all at hleads
      cases hleads with
      | nil => cases hall
      | @cons _ next _ f _ hm hf hrel hnext hleads =>
          obtain ⟨rfl, rfl⟩ := List.cons.inj hall
          have hrest : ∀ s ∈ rest, s.field.type.isMany = false := fun s hmem =>
            hsingle s (List.mem_cons_of_mem _ hmem)
          -- One hop leads to no row, to null or to one row, from which the rest starts.
          rw [trail]
          rcases hop_of_single hn hs hm hf (hsingle _ List.mem_cons_self) hnext ha with
            hhop | hhop | ⟨v, hv, hhop⟩
          · rw [hhop, List.flatMap_nil]
            exact List.nodup_nil
          · have hne : rest ++ [s] ≠ [] := List.append_ne_nil_of_right_ne_nil rest (List.cons_ne_nil s [])
            have hnull : trail reg st (rest ++ [s]) .null = [] := trail_null hne
            rw [hhop, List.flatMap_singleton]
            exact hnull ▸ List.nodup_nil
          · rw [hhop, List.flatMap_singleton]
            exact ih hleads hrest hv

/-- The rows that the way back of a chain leads to a key from are those that the chain reaches from it,
up to its first to-many relation each of them once. -/
theorem trail_perm_reaching (hm : m ∈ reg.models) (hleads : Leads reg m (before ++ [s]) t)
    (hsingle : ∀ s ∈ before, s.field.type.isMany = false) (ha : a ∈ st.keys m)
    (hiff : ∀ b ∈ st.keys t, b ∈ trail reg st (before ++ [s]) a ↔ a ∈ trail reg st back b) :
    given (trail reg st (before ++ [s]) a) ~ (st.keys t).filter fun b => a ∈ trail reg st back b := by
  have ht := hleads.mem_models hm
  rw [List.perm_ext_iff_of_nodup (nodup_trail hn hs hleads hsingle ha) ((hs.distinct t ht).filter _)]
  intro b
  rw [mem_given, List.mem_filter, decide_eq_true_iff]
  constructor
  · rintro ⟨hb, hne⟩
    rcases mem_keys_of_mem_trail hn hs.intact hleads ha hb with hnull | hkey
    · exact absurd hnull hne
    · exact ⟨hkey, (hiff b hkey).mp hb⟩
  · rintro ⟨hkey, hab⟩
    exact ⟨(hiff b hkey).mpr hab, Value.ne_null_of_isPlain (hs.plain t ht b hkey)⟩

end Once

end RecordMapper.Store
