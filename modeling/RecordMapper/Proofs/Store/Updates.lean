import RecordMapper.Proofs.Store.Constraints
import RecordMapper.Proofs.Store.Selection

/-!
# Updates — overwritten rows keep the constraints

An update overwrites columns under the keys it selected and moves no key
(`Overwrites`); every selected row is checked after the last one was
written.

It may write under another key than the one it selected, since the key
of a sole row answers to what is equal to it. That row is alone in its
table, and the check reads it by the same rule.
-/

namespace RecordMapper.Store

variable {reg : Registry} {st st' before : Store} {m m' : Model} {pk k : Value} {P : Value → Prop}
  {values : Record}

/-- A store with the keys and counters of another, and its rows but for those under the keys `T`. -/
structure Overwrites (reg : Registry) (T : Model → Value → Prop) (before st : Store) : Prop where
  keys : ∀ m ∈ reg.models, st.keys m = before.keys m
  lastId : ∀ m ∈ reg.models, (st.table m).lastId = (before.table m).lastId
  row : ∀ m ∈ reg.models, ∀ k ∈ before.keys m, T m k ∨ st.row? m k = before.row? m k

theorem Overwrites.refl (reg : Registry) (T : Model → Value → Prop) (st : Store) :
    Overwrites reg T st st where
  keys _ _ := rfl
  lastId _ _ := rfl
  row _ _ _ _ := .inr rfl

/-- The key under which a selected row stands in the table of an ancestor. -/
def Seated (reg : Registry) (before : Store) (m : Model) (pks : List Value) (m' : Model) (k : Value) :
    Prop :=
  m' ∈ reg.lineage m ∧ ∃ pk ∈ pks, k = Keyed.seat (before.table m').rows pk

theorem columnOwner?_mem {name : String} {owner : Model} (h : columnOwner? reg m name = some owner) :
    owner ∈ reg.lineage m := by
  rw [columnOwner?] at h
  split at h
  · cases h
    exact reg.self_mem_lineage m
  · exact List.mem_of_find?_eq_some h

theorem setCell_overwrites (hr : reg.Rooted) (hm : m ∈ reg.models) {pks : List Value} (hpk : pk ∈ pks)
    (h : Overwrites reg (Seated reg before m pks) before st) (name : String) (v : Value) :
    Overwrites reg (Seated reg before m pks) before (setCell reg st m pk name v) := by
  unfold setCell
  split
  · exact h
  · rename_i owner howner
    split
    · rename_i row hrow
      have hl := columnOwner?_mem howner
      have hown := hr.mem_models hm hl
      have hseat : Keyed.seat (st.table owner).rows pk ∈ st.keys owner := Keyed.seat_mem_of_get? hrow
      -- No key has changed so far, so the row written to is the one the key found before.
      have hsame : Keyed.seat (st.table owner).rows pk = Keyed.seat (before.table owner).rows pk :=
        Keyed.seat_congr (h.keys owner hown) pk
      constructor
      case keys =>
        intro m' hm'
        by_cases he : m' = owner
        · subst he
          exact (keys_setRow_of_mem _ hseat).trans (h.keys m' hm')
        · rw [Store.keys, table_setRow_of_ne hr hown hm' he]
          exact h.keys m' hm'
      case lastId =>
        intro m' hm'
        by_cases he : m' = owner
        · subst he
          rw [table_setRow_self]
          exact h.lastId m' hm'
        · rw [table_setRow_of_ne hr hown hm' he]
          exact h.lastId m' hm'
      case row =>
        intro m' hm' k hk
        by_cases he : m' = owner
        · subst he
          by_cases hks : k = Keyed.seat (st.table m').rows pk
          · exact .inl ⟨hl, pk, hpk, hks.trans hsame⟩
          · rw [row?_setRow_ne _ (h.keys m' hm' ▸ hk) hks]
            exact h.row m' hm' k hk
        · rw [row?_congr (congrArg Table.rows (table_setRow_of_ne hr hown hm' he _ _ _))]
          exact h.row m' hm' k hk
    · exact h

/-- An update that succeeded overwrote the selected rows, all of which were checked in the end. -/
theorem update_eq_ok {qs : Queryset} {n : Nat} (h : update reg st qs values = .ok (n, st')) :
    ∃ pks, select reg st qs = .ok pks ∧
      st' = pks.foldl (fun st pk =>
        values.foldl (fun st (name, v) => setCell reg st qs.model pk name v) st) st ∧
      (∀ pk ∈ pks, checkRow reg st' qs.model pk = .ok ()) ∧ n = pks.length := by
  rw [update] at h
  obtain ⟨_, _, h⟩ := Outcome.bind_eq_ok.mp h
  split at h
  · cases h
  · obtain ⟨pks, hpks, h⟩ := Outcome.bind_eq_ok.mp h
    obtain ⟨_, hchecks, h⟩ := Outcome.bind_eq_ok.mp h
    cases h
    exact ⟨pks, hpks, rfl, Outcome.forM_eq_ok.mp hchecks, rfl⟩

theorem update_overwrites (hr : reg.Rooted) (hm : m ∈ reg.models) (st : Store) (pks : List Value)
    (values : Record) :
    Overwrites reg (Seated reg st m pks) st (pks.foldl (fun st pk =>
      values.foldl (fun st (name, v) => setCell reg st m pk name v) st) st) := by
  refine List.foldlRecOn pks _ (.refl reg _ st) fun _ h pk hpk => ?_
  exact List.foldlRecOn values _ h fun _ h e _ => setCell_overwrites hr hm hpk h e.1 e.2

/-- The row under the seat of a key is the row the key reads. -/
theorem row?_seat (h : Keyed.seat (st.table m).rows k ∈ st.keys m) :
    st.row? m (Keyed.seat (st.table m).rows k) = st.row? m k :=
  row?_of_mem h

/-- A row that answers to a checked key passes under its own key. -/
theorem passes_of_seat (hr : reg.Rooted) (hm : m ∈ reg.models) (h : Passes reg st m pk)
    (hk : k ∈ st.keys m) (hnull : k.isNull = false) (hseat : k = Keyed.seat (st.table m).rows pk) :
    Passes reg st m k := by
  rcases Keyed.seat_eq_or_sole (st.table m).rows pk with hs | ⟨hsole, _⟩
  · rw [hseat, hs]
    exact h
  · intro f hf hc hp
    rw [← hseat] at hsole
    have hrow : st.row? m k = st.row? m pk := by
      rw [hseat] at hk ⊢
      exact row?_seat hk
    refine ⟨fun hn => ?_, fun _ _ other ho hne => ?_⟩
    · have hpass := (h f hf hc hp).1 hn
      rw [cell_of_own hr hm hf hc] at hpass ⊢
      split
      · exact hnull
      · rename_i hname
        rwa [if_neg hname, ← hrow] at hpass
    · -- no other key stands beside a sole one
      rw [keys, hsole, List.mem_singleton] at ho
      exact absurd ho hne

theorem update_change (hr : reg.Rooted) {qs : Queryset} (hm : qs.model ∈ reg.models)
    (hk : WellKept reg P st) (hP : ∀ k, P k → k.isNull = false) {n : Nat}
    (h : update reg st qs values = .ok (n, st')) : Change reg P st st' := by
  obtain ⟨pks, _, hst', hchecks, _⟩ := update_eq_ok h
  have hover := update_overwrites hr hm st pks values
  rw [← hst'] at hover
  constructor
  case nodup =>
    intro m' hm'
    rw [hover.keys m' hm']
    exact hk.nodup m' hm'
  case rows =>
    intro m' hm' k hk'
    have hold : k ∈ st.keys m' := hover.keys m' hm' ▸ hk'
    rcases hover.row m' hm' k hold with ⟨hl, pk, hpk, hseat⟩ | hrow
    · have hPk := hk.keyed m' hm' k hold
      have hseat' : k = Keyed.seat (st'.table m').rows pk :=
        hseat.trans (Keyed.seat_congr (hover.keys m' hm').symm pk)
      exact .inr ⟨hPk, passes_of_seat hr hm' (passes_of_checkRow (hchecks pk hpk) hl) hk' (hP k hPk) hseat'⟩
    · exact .inl ⟨hold, hrow⟩
  case counted =>
    intro m' hm' hp n hn
    rw [hover.lastId m' hm']
    exact hk.counted m' hm' hp n (hover.keys m' hm' ▸ hn)

theorem update_inherits (hr : reg.Rooted) {qs : Queryset} (hm : qs.model ∈ reg.models)
    (hi : Inherits reg st) {n : Nat} (h : update reg st qs values = .ok (n, st')) :
    Inherits reg st' := by
  obtain ⟨pks, _, hst', _, _⟩ := update_eq_ok h
  have hover := update_overwrites hr hm st pks values
  rw [← hst'] at hover
  intro m' hm' upper hu
  rw [hover.keys m' hm', hover.keys upper (hr.mem_models hm' hu)]
  exact hi m' hm' upper hu

end RecordMapper.Store
