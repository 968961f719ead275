import RecordMapper.Proofs.Database.Runs
import RecordMapper.Proofs.Registry.Lineage
import RecordMapper.Proofs.Store.Deletes
import RecordMapper.Proofs.Store.Inserts
import RecordMapper.Proofs.Store.Updates

/-!
# Constraints along runs — what every store of a run obeys

Not-null columns stay filled, unique columns stay unrepeated and key
counters stay above their keys in every store of every run over the
models of a built registry. Keys stay inherited exactly when the run is
`Anchored`: an insert below a parent always found the parent's row under
the very key it was given.

A run can miss that. The key of a sole row also finds what is only equal
to it (`Keyed.seat`), while rows are kept apart by what is written down:
a document `-0.0` finds the sole parent `0.0` and is inserted below it
under a key that the parent's table does not hold.
-/

namespace RecordMapper

/-! ## The keys of a run -/

namespace Call

/-- The models a write is about belong to a registry. -/
def Within (reg : Registry) : Call → Prop
  | .insert m _ => m ∈ reg.models
  | .insertChild m _ => m ∈ reg.models
  | .update qs _ => qs.model ∈ reg.models
  | .delete qs => qs.model ∈ reg.models
  | _ => True

/-- A key that a call brings: the one its values give, or the initial value of the key's column. -/
def Brings (reg : Registry) (now : Instant) (k : Value) : Call → Prop
  | .insert m values =>
    Store.givenKey? m values = some k ∨ ∃ f, reg.field m m.pkName = .ok f ∧ k = f.initial now
  | .insertChild m values => Store.givenKey? m values = some k
  | _ => False

end Call

namespace Database

/-- A key that rows of a run can have: one that a call brings, or a generated integer. -/
def Drawn (reg : Registry) (calls : List (Instant × Call)) (k : Value) : Prop :=
  k.isNull = false ∧ ((∃ n, k = .int n) ∨ ∃ c ∈ calls, c.2.Brings reg c.1 k)

/-- Keys of a run that are equal are the same. -/
def KeysApart (reg : Registry) (calls : List (Instant × Call)) : Prop :=
  ∀ k k', Drawn reg calls k → Drawn reg calls k' → k.equiv k' → k = k'

/-- Every insert below a parent that succeeds is given a key that the parent's table holds. -/
def Anchored (reg : Registry) (calls : List (Instant × Call)) : Prop :=
  ∀ done now m values rest, calls = done ++ (now, .insertChild m values) :: rest →
    ∀ st', Store.insertChild reg now (empty.play reg done).store m values = .ok st' →
      ∀ pk parent, Store.givenKey? m values = some pk → reg.parent? m = some parent →
        pk ∈ (empty.play reg done).store.keys parent

variable {reg : Registry} {calls : List (Instant × Call)} {st : Store}

theorem drawn_of_newKey {m : Model} {f : Field} {values : Record} {now : Instant} (before : Store)
    (hc : (now, Call.insert m values) ∈ calls) (hf : reg.field m m.pkName = .ok f)
    (hnull : (Store.newKey reg now before m f values).isNull = false) :
    Drawn reg calls (Store.newKey reg now before m f values) := by
  refine ⟨hnull, ?_⟩
  unfold Store.newKey
  split
  · rename_i pk hpk
    exact .inr ⟨_, hc, .inl hpk⟩
  · split
    · exact .inl ⟨_, rfl⟩
    · exact .inr ⟨_, hc, .inr ⟨f, hf, rfl⟩⟩

theorem drawn_of_givenKey {m : Model} {values : Record} {now : Instant} {pk : Value}
    (hc : (now, Call.insertChild m values) ∈ calls) (hpk : Store.givenKey? m values = some pk) :
    Drawn reg calls pk := by
  refine ⟨?_, .inr ⟨_, hc, hpk⟩⟩
  simpa using (Option.filter_eq_some_iff.mp hpk).2

/-! ## One write -/

/-- A successful write keeps a store well kept. -/
theorem leaves_wellKept (hr : reg.Rooted) {now : Instant} {c : Call} (hc : (now, c) ∈ calls)
    (hw : c.Within reg) {st' : Store} (hk : Store.WellKept reg (Drawn reg calls) st)
    (h : c.Leaves reg now st st') : Store.WellKept reg (Drawn reg calls) st' := by
  cases h with
  | insert h =>
      obtain ⟨f, hf, rfl, hnull, _⟩ := Store.insert_eq_ok h
      exact hk.change hr (Store.insert_change hr hw hk (drawn_of_newKey st hc hf hnull) h)
  | insertChild h =>
      exact hk.change hr (Store.insertChild_change hr hw hk (fun _ hpk => drawn_of_givenKey hc hpk) h)
  | update h => exact hk.change hr (Store.update_change hr hw hk (fun _ hd => hd.1) h)
  | delete h => exact hk.change hr ((Store.delete_shrinks h).change hk)

/-- A successful write keeps keys inherited, one below a parent if it is given a key of the parent's
table. -/
theorem leaves_inherits (hr : reg.Rooted) {now : Instant} {c : Call} (hw : c.Within reg) {st' : Store}
    {P : Value → Prop} (hk : Store.WellKept reg P st) (hi : Store.Inherits reg st)
    (habove : ∀ m values, c = .insertChild m values → ∀ pk parent,
      Store.givenKey? m values = some pk → reg.parent? m = some parent → pk ∈ st.keys parent)
    (h : c.Leaves reg now st st') : Store.Inherits reg st' := by
  cases h with
  | insert h => exact Store.insert_inherits hr hw hi h
  | insertChild h => exact Store.insertChild_inherits hr hw hi (habove _ _ rfl) h
  | update h => exact Store.update_inherits hr hw hi h
  | delete h => exact Store.delete_inherits hr hw hk.nodup hi h

/-! ## Whole runs -/

theorem Reached.wellKept (hr : reg.Rooted) (hw : ∀ c ∈ calls, c.2.Within reg)
    (h : Reached reg calls st) : Store.WellKept reg (Drawn reg calls) st := by
  refine h.induction (.empty reg _) fun done now c rest hsplit hk st' hleaves => ?_
  have hc : (now, c) ∈ calls := mem_of_split hsplit
  exact leaves_wellKept hr hc (hw _ hc) hk hleaves

theorem Reached.inherits (hr : reg.Rooted) (hw : ∀ c ∈ calls, c.2.Within reg)
    (ha : Anchored reg calls) (h : Reached reg calls st) : Store.Inherits reg st := by
  refine h.induction (.empty reg) fun done now c rest hsplit hi st' hleaves => ?_
  have hc : (now, c) ∈ calls := mem_of_split hsplit
  have hk := Reached.wellKept hr hw (reached_before hsplit)
  refine leaves_inherits hr (hw _ hc) hk hi (fun m values he pk parent hpk hparent => ?_) hleaves
  subst he
  cases hleaves with
  | insertChild hok => exact ha done now m values rest hsplit st' hok pk parent hpk hparent

/-- A run whose stores all inherit their keys is anchored: the row that an insert below a parent
succeeded with stands in the next store. -/
theorem anchored_of_inherits (hr : reg.Rooted) (hw : ∀ c ∈ calls, c.2.Within reg)
    (h : ∀ st, Reached reg calls st → Store.Inherits reg st) : Anchored reg calls := by
  intro done now m values rest hsplit st' hok pk parent hpk hparent
  have hm : m ∈ reg.models := hw _ (mem_of_split hsplit)
  have hreached : Reached reg calls st' := store_perform_insertChild hok ▸ reached_next hsplit
  obtain ⟨_, rfl⟩ := Store.contains_of_insertChild hpk hparent hok
  have hup := h _ hreached m hm parent (hr.parent_mem_lineage hm hparent)
    (Store.mem_keys_setRow.mpr (.inl rfl))
  -- The insert did not touch the parent's table, so the key stood there before.
  have hpm := (Registry.parent?_eq_some hparent).2
  have hne : parent ≠ m := fun he =>
    hr.not_mem_lineage_parent hm hparent (he ▸ reg.self_mem_lineage parent)
  rwa [Store.keys, Store.table_setRow_of_ne hr hm hpm hne] at hup

/-- Where equal keys are the same, the row found under a key stands under that key. -/
theorem anchored_of_keysApart (hr : reg.Rooted) (hw : ∀ c ∈ calls, c.2.Within reg)
    (h : KeysApart reg calls) : Anchored reg calls := by
  intro done now m values rest hsplit st' hok pk parent hpk hparent
  have hc : (now, Call.insertChild m values) ∈ calls := mem_of_split hsplit
  have hk := Reached.wellKept hr hw (reached_before hsplit)
  have hpm := (Registry.parent?_eq_some hparent).2
  obtain ⟨row, hrow⟩ := Option.isSome_iff_exists.mp (Store.contains_of_insertChild hpk hparent hok).1
  have hseat := Keyed.seat_mem_of_get? hrow
  rcases Keyed.seat_eq_or_sole ((empty.play reg done).store.table parent).rows pk with hs | ⟨_, hequiv⟩
  · rwa [hs] at hseat
  · -- A sole key answers to what equals it, and here that is itself.
    have hdrawn := hk.keyed parent hpm _ hseat
    rw [h pk _ (drawn_of_givenKey hc hpk) hdrawn hequiv]
    exact hseat

/-- What the stores of a run obey. Columns and counters always do; keys are inherited exactly in anchored
runs, and in particular where equal keys are the same. -/
theorem constraints_along_runs {decls : List ModelDecl} (hb : Registry.build decls = .ok reg)
    (hw : ∀ c ∈ calls, c.2.Within reg) :
    (∀ st, Reached reg calls st →
      Store.Filled reg st ∧ Store.Unrepeated reg st ∧ Store.Counted reg st) ∧
    ((∀ st, Reached reg calls st → Store.Inherits reg st) ↔ Anchored reg calls) ∧
    (KeysApart reg calls → Anchored reg calls ∧ ∀ st, Reached reg calls st →
      ∀ m ∈ reg.models, ∀ k ∈ st.keys m, ∀ k' ∈ st.keys m, k ≠ k' → k.Apart k') := by
  have hr := Registry.rooted_of_build hb
  refine ⟨fun st h => ?_, ⟨anchored_of_inherits hr hw, fun ha st h => h.inherits hr hw ha⟩,
    fun hk => ⟨anchored_of_keysApart hr hw hk, fun st h m hm k hk' k' hk'' hne => ?_⟩⟩
  · have hwell := h.wellKept hr hw
    exact ⟨hwell.filled, hwell.unrepeated, hwell.counted⟩
  · have hwell := h.wellKept hr hw
    have hdrawn := hwell.keyed m hm k hk'
    have hdrawn' := hwell.keyed m hm k' hk''
    refine ⟨hne, ?_, ?_⟩
    · exact Bool.eq_false_iff.mpr fun he => hne (hk k k' hdrawn hdrawn' he)
    · exact Bool.eq_false_iff.mpr fun he => hne (hk k' k hdrawn' hdrawn he).symm

/-! ## A run that is not anchored -/

/-- A parent with documents as keys. -/
def shelf : Model :=
  { name := "shelf", parent := none, pkName := "id",
    own := [{ name := "id", type := .json, primaryKey := true, unique := true },
      { name := "n", type := .integer }],
    reverse := [] }

/-- A child of `shelf`. -/
def drawer : Model :=
  { name := "drawer", parent := some "shelf", pkName := "id",
    own := [{ name := "c", type := .integer, null := true }], reverse := [] }

def furniture : List ModelDecl :=
  [{ name := "shelf", fields := shelf.own },
    { name := "drawer", parent := some "shelf", fields := drawer.own }]

/-- The document `0.0` or `-0.0`. -/
def zeroKey (negative : Bool) : Value := .json (.number (.float (.ofMagnitude negative 0)))

def oneKey : Value := .json (.number (.integer 1))

/-- A drawer under `-0.0` below the sole shelf, which stands under `0.0`, and then a second shelf. -/
def zeroRun : List (Instant × Call) :=
  [(⟨0, 0⟩, .insert shelf [("id", zeroKey false), ("n", .int 1)]),
    (⟨0, 0⟩, .insertChild drawer [("id", zeroKey true)]),
    (⟨0, 0⟩, .insert shelf [("id", oneKey), ("n", .int 2)])]

theorem build_furniture : Registry.build furniture = .ok ⟨[shelf, drawer]⟩ := rfl

theorem zeroRun_within : ∀ c ∈ zeroRun, c.2.Within ⟨[shelf, drawer]⟩ := by
  intro c hc
  simp only [zeroRun, List.mem_cons, List.not_mem_nil, or_false] at hc
  rcases hc with rfl | rfl | rfl <;> simp [Call.Within]

theorem constraints_along_zeroRun :
    (Registry.build furniture = .ok ⟨[shelf, drawer]⟩ ∧ ∀ c ∈ zeroRun, c.2.Within ⟨[shelf, drawer]⟩) ∧
    ((∀ st, Reached ⟨[shelf, drawer]⟩ zeroRun st → Store.Inherits ⟨[shelf, drawer]⟩ st) ↔
      Anchored ⟨[shelf, drawer]⟩ zeroRun) :=
  ⟨⟨build_furniture, zeroRun_within⟩, (constraints_along_runs build_furniture zeroRun_within).2.1⟩

/-- A run can lose a parent: in the end the drawer's key finds no shelf. -/
theorem zeroRun_loses_parent :
    Registry.build furniture = .ok ⟨[shelf, drawer]⟩ ∧ (∀ c ∈ zeroRun, c.2.Within ⟨[shelf, drawer]⟩) ∧
      ∃ st, Reached ⟨[shelf, drawer]⟩ zeroRun st ∧ ¬ Store.Inherits ⟨[shelf, drawer]⟩ st ∧
        zeroKey true ∈ st.keys drawer ∧ st.contains shelf (zeroKey true) = false := by
  have hup : shelf ∈ Registry.lineage ⟨[shelf, drawer]⟩ drawer := by decide
  have hkey : zeroKey true ∈ (empty.play ⟨[shelf, drawer]⟩ zeroRun).store.keys drawer := by decide
  have hlost : (empty.play ⟨[shelf, drawer]⟩ zeroRun).store.contains shelf (zeroKey true) = false := rfl
  refine ⟨build_furniture, zeroRun_within, _, reached_present (List.prefix_refl zeroRun), fun hi => ?_,
    hkey, hlost⟩
  exact Store.not_mem_of_contains hlost (hi drawer (by decide) shelf hup hkey)

end Database

end RecordMapper
