import RecordMapper.Proofs.Database.Constraints
import RecordMapper.Proofs.Save.Columns
import RecordMapper.Proofs.Save.Skipped
import RecordMapper.Proofs.Save.Written
import RecordMapper.Proofs.Schema.Placed
import RecordMapper.Proofs.Steps.Endings
import RecordMapper.Proofs.Store.Refusals
import RecordMapper.Proofs.Store.Constraints

/-!
# Forbidden fields — what the mode of a field keeps out of a save

A save takes of its data the entries of fields whose modes allow the
operation (`Schema.taken`); all others leave no trace. Where a row is
created the update that is tried first takes no more, as what may be
changed may be given. Where a row is updated, the entries of new rows
alone would be used by the creation that follows an update which finds
nothing; a row that stands cannot be created again, so they are not.
That needs the root of the inheritance to hold the key as well
(`save_ignores_forbidden`); a child's row without it is overwritten
(`orphan_takes_forbidden`).
-/

namespace RecordMapper

namespace Schema

/-- Whether what stands under a name is taken for an operation. -/
def takes (s : Schema) (op : Operation) (name : String) : Bool :=
  (s.field? name).any fun f => !f.isPrimaryKey && f.mode.allows op

/-- The entries of data that are taken for an operation. -/
def taken (s : Schema) (op : Operation) (data : Record) : Record := data.filter fun e => s.takes op e.1

/-- Whether a save finds a row under a key: under the very key, or by the comparison of an update. -/
def finds (reg : Registry) (s : Schema) (st : Store) (pk : Value) : Bool :=
  (st.keys s.model).contains pk || (Store.select reg st (Save.target s pk)).toOption.any fun pks => !pks.isEmpty

/-- The operation that a save performs on a store: an update where there is a row of the data's key, unless
it has to create one. -/
def operationOn (reg : Registry) (s : Schema) (st : Store) (o : SaveOptions) (data : Record) : Operation :=
  if (s.keyOf? data).any fun pk => !o.mustCreate && s.finds reg st pk then .update else .create

variable {reg : Registry} {s : Schema} {op : Operation} {data data' : Record}

/-- The parts of data are those of what is taken of it. -/
theorem split_taken (op : Operation) (data : Record) :
    SaveParts.split s op (s.taken op data) = SaveParts.split s op data := by
  rw [SaveParts.split, SaveParts.split, taken, List.foldl_filter]
  refine congrArg (data.foldl · _) (funext fun parts => funext fun e => ?_)
  split
  · rfl
  · rename_i hleft
    rcases SaveParts.addEntry_cases s op parts e with hadd | ⟨f, hf, hkey, hallows, _⟩
    · exact hadd.symm
    · rw [takes, hf, Option.any_some, hkey, hallows] at hleft
      exact absurd rfl hleft

theorem split_congr (h : s.taken op data' = s.taken op data) :
    SaveParts.split s op data' = SaveParts.split s op data := by
  rw [← split_taken, h, split_taken]

/-- What is taken for an update is taken for a creation. -/
theorem takes_create (hs : s.Declared reg) {name : String} (h : s.takes .update name) : s.takes .create name := by
  obtain ⟨f, hf, h⟩ := (Option.any_eq_true _ _).mp h
  obtain ⟨hkey, hupdate⟩ := Bool.and_eq_true_iff.mp h
  have hcreate := (hs.written (mem_fieldList_of_field? hf)).lenient hupdate
  exact (Option.any_eq_true _ _).mpr ⟨f, hf, Bool.and_eq_true_iff.mpr ⟨hkey, hcreate⟩⟩

theorem taken_update (hs : s.Declared reg) (data : Record) :
    s.taken .update (s.taken .create data) = s.taken .update data := by
  rw [taken, taken, List.filter_filter]
  refine List.filter_congr fun e _ => ?_
  cases h : s.takes .update e.1 with
  | false => rfl
  | true => rw [takes_create hs h]; rfl

theorem taken_all (hs : s.Declared reg) (h : s.taken .create data' = s.taken .create data) :
    s.taken .update data' = s.taken .update data := by
  rw [← taken_update hs, h, taken_update hs]

end Schema

namespace Save

open Store

variable {app : Application} {t : WriteTarget} {reg : Registry} {s : Schema} {o : SaveOptions} {st : Store}
  {data data' extra : Record} {pk : Value} {now : Instant}

/-- Data with the same parts is written the same. -/
theorem writeRow_congr (hkey : s.keyOf? data' = s.keyOf? data)
    (hupdate : SaveParts.split s .update data' = SaveParts.split s .update data)
    (hcreate : SaveParts.split s .create data' = SaveParts.split s .create data) :
    writeRow app t s o data' extra = writeRow app t s o data extra := by
  simp only [writeRow, createRow, extendParent, hkey, hupdate, hcreate]

/-! ## Rows that cannot be created -/

/-- Where the root of the inheritance holds the key, a row is not created, whatever its data. -/
theorem createRow_refused (hs : s.Declared reg) (hnull : pk.isNull = false)
    (hroot : pk ∈ st.keys (reg.rootOf s.model)) (data data' : Record) :
    Job.SameOn t.database reg st (createRow t s (some pk) data []) (createRow t s (some pk) data' []) := by
  refine .bind .rfl (.clock fun now _ => ?_)
  have hrow := namesRow_createColumns hs now pk
  have hkey := (hrow data).givenKey?
  rw [Option.filter_some, hnull] at hkey
  have hrefused (at' : Instant) : insert reg at' st s.model _ = insert reg at' st s.model _ ∧ _ :=
    insert_refused ((hrow data).sameRequest (hrow data')) hkey (contains_of_mem hroot)
  refine .bind_refused (.insert fun at' => (hrefused at').1) _ _ (.insert fun at' _ key st' hinsert => ?_)
  have hnone := (hrefused at').2
  rw [hinsert] at hnone
  cases hnone

/-- Nor is it put below a parent's row, where the model's own table holds the key. -/
theorem extendParent_refused (hs : s.Declared app.registry) (hstands : pk ∈ st.keys s.model)
    (data data' : Record) :
    Job.SameOn t.database app.registry st (extendParent app t s pk data []) (extendParent app t s pk data' []) := by
  refine .bind .rfl (.clock fun now _ => ?_)
  have hrow := fun data => namesRow_localTo (namesRow_createColumns hs now pk data)
  have hrefused (at' : Instant) : insertChild app.registry at' st s.model _ =
      insertChild app.registry at' st s.model _ ∧ _ :=
    (hrow data).insertChild_refused (hrow data') fun k hk => by
      split at hk
      · exact Option.some.inj hk ▸ contains_of_mem hstands
      · cases hk
  refine .bind_refused (.insertChild fun at' => (hrefused at').1) _ _ (.insertChild fun at' _ st' hinsert => ?_)
  have hnone := (hrefused at').2
  rw [hinsert] at hnone
  cases hnone

/-- Where an update finds a row, or its key cannot be given to a new one, only what the update takes of the data
matters. -/
theorem writeRow_sameOn (hs : s.Declared app.registry) (hkey : s.keyOf? data = some pk)
    (hkey' : s.keyOf? data' = some pk) (hcreate : o.mustCreate = false) (hfinds : s.finds app.registry st pk)
    (hroot : pk ∈ st.keys s.model → pk ∈ st.keys (app.registry.rootOf s.model))
    (hsplit : SaveParts.split s .update data' = SaveParts.split s .update data) :
    Job.SameOn t.database app.registry st (writeRow app t s o data []) (writeRow app t s o data' []) := by
  have hnull : pk.isNull = false := by simpa using (Option.filter_eq_some_iff.mp hkey).2
  unfold writeRow
  rw [hkey, hkey', hcreate]
  simp only [Bool.false_eq_true, if_false]
  refine .bind .rfl (.clock fun now _ => ?_)
  rw [hsplit]
  -- The update does the same; if it finds no row the table holds the very key.
  have hafter : ∀ {pks : List Value} {st' : Store}, select app.registry st (target s pk) = .ok pks →
      st' = overwrite app.registry s.model ((SaveParts.split s .update data).updateColumns s now []) pks st →
      Job.SameOn t.database app.registry st' (do
        if pks.length > 0 then return ⟨pk, false, SaveParts.split s .update data⟩
        if ← parentHas app t s pk then extendParent app t s pk data []
        else if o.mustUpdate then throw (.noRowToUpdate s.name pk)
        else createRow t s (some pk) data []) (do
        if pks.length > 0 then return ⟨pk, false, SaveParts.split s .update data⟩
        if ← parentHas app t s pk then extendParent app t s pk data' []
        else if o.mustUpdate then throw (.noRowToUpdate s.name pk)
        else createRow t s (some pk) data' []) := by
    intro pks st' hpks hst'
    refine .ite (fun _ => .rfl) fun hnone => ?_
    obtain rfl : pks = [] := by simpa using hnone
    obtain rfl : st' = st := hst'
    have hstands : pk ∈ st'.keys s.model := by
      rcases Bool.or_eq_true_iff.mp hfinds with hmem | hselected
      · exact List.contains_iff_mem.mp hmem
      · rw [hpks] at hselected
        cases hselected
    refine .bind .rfl (parentHas_ends.imp fun found after hsame => ?_)
    subst hsame
    refine .ite (fun _ => extendParent_refused hs hstands data data') fun _ => .ite (fun _ => .rfl) fun _ => ?_
    exact createRow_refused hs hnull (hroot hstands) data data'
  refine .ite (fun hempty => ?_) fun _ => ?_
  · refine .bind .rfl (.count rfl fun pks hpks => hafter hpks ?_)
    rw [List.isEmpty_iff.mp hempty, overwrite_nil]
  · refine .bind .rfl (.update rfl fun n st' hupdate => ?_)
    obtain ⟨pks, hpks, hst', _, rfl⟩ := update_eq_ok hupdate
    exact hafter hpks hst'

/-- Data whose row is written the same has the same relations written too. -/
theorem row_sameOn
    (h : Job.SameOn t.database app.registry st (writeRow app t s o data []) (writeRow app t s o data' [])) :
    Job.SameOn t.database app.registry st (row app t s o data) (row app t s o data') := by
  -- Levels to spare do not matter, so both records may have those that the deeper one needs.
  have hlevels {item : Record} (hitem : item = data ∨ item = data') :
      Job.Same (row app t s o item)
        (rowWithin app t (max (Value.entriesDepth data) (Value.entriesDepth data') + 1) s o item []) := by
    refine rowWithin_levels (Nat.lt_succ_self _) (Nat.lt_succ_of_le ?_) s o []
    rcases hitem with rfl | rfl
    · exact Nat.le_max_left ..
    · exact Nat.le_max_right ..
  intro w hreg hst
  rw [hlevels (.inl rfl) w, hlevels (.inr rfl) w]
  exact h.bind_left _ w hreg hst

theorem mapped_sameOn {ctx : Context} {database : String} {j j' : Job Value} (h : Job.SameOn database reg st j j') :
    Job.SameOn database reg st (mapped ctx j) (mapped ctx j') :=
  h.attempt.bind_left _

/-- A save of data takes of it what its operation allows. -/
theorem row_ignores (hs : s.Declared app.registry) (hkey : s.keyOf? data' = s.keyOf? data)
    (hroot : ∀ pk, s.keyOf? data = some pk → pk ∈ st.keys s.model → pk ∈ st.keys (app.registry.rootOf s.model))
    (htaken : s.taken (s.operationOn app.registry st o data) data' =
      s.taken (s.operationOn app.registry st o data) data) :
    Job.SameOn t.database app.registry st (row app t s o data) (row app t s o data') := by
  refine row_sameOn ?_
  unfold Schema.operationOn at htaken
  split at htaken
  · rename_i hupdates
    obtain ⟨pk, hpk, hfinds⟩ := (Option.any_eq_true _ _).mp hupdates
    obtain ⟨hcreate, hfinds⟩ := Bool.and_eq_true_iff.mp hfinds
    exact writeRow_sameOn hs hpk (hkey.trans hpk) ((Bool.not_eq_true' _).mp hcreate) hfinds (hroot pk hpk)
      (Schema.split_congr htaken)
  · rw [writeRow_congr hkey (Schema.split_congr (Schema.taken_all hs htaken)) (Schema.split_congr htaken)]
    exact .rfl

end Save

namespace Application

open Save

variable {app : Application} {t : WriteTarget} {reg : Registry} {s : Schema} {o : SaveOptions} {st : Store}
  {ctx : Context} {data data' : Record}

/-- Saves do the same where their rows are saved the same. -/
theorem save_sameOn (ht : WriteTarget.of app.connections ctx o = .ok t)
    (h : Job.SameOn t.database reg st (row app t s o data) (row app t s o data')) :
    Job.SameOn t.database reg st (app.save s data ctx o) (app.save s data' ctx o) := by
  refine mapped_sameOn (.bind .rfl (.ofOutcome fun _ _ => .bind .rfl (.ofOutcome fun t' ht' => ?_)))
  obtain rfl : t = t' := Except.ok.inj (ht.symm.trans ht')
  exact h.atomicIf t.transactional

/-- What the mode of a field forbids in the operation that a save performs leaves no trace: two records of one
key that have the same entries for the fields whose modes allow it, in the same order, have one run, with one
result and one world after it. If the table of a model that inherits holds the key, so must the root of its
inheritance. -/
theorem save_ignores_forbidden {cat : Catalog} {w : World} {s : Schema} {ctx : Context} {o : SaveOptions}
    {data data' : Record} (hs : s.Declared w.registry) (hkey : s.keyOf? data' = s.keyOf? data)
    (hstands : ∀ t, WriteTarget.of w.connections ctx o = .ok t →
      let st := (w.database t.database).store
      (∀ pk, s.keyOf? data = some pk → pk ∈ st.keys s.model → pk ∈ st.keys (w.registry.rootOf s.model)) ∧
      s.taken (s.operationOn w.registry st o data) data' = s.taken (s.operationOn w.registry st o data) data) :
    w.runJob ((w.application cat).save s data' ctx o) = w.runJob ((w.application cat).save s data ctx o) := by
  cases ht : WriteTarget.of w.connections ctx o with
  | error f =>
      -- Where there is nowhere to write, no record is looked at.
      have hnowhere : WriteTarget.of (w.application cat).connections ctx o = .error f := ht
      have hstop (k : WriteTarget → Job Value) : (Job.ofOutcome (.error f) >>= k) = Job.ofOutcome (.error f) := rfl
      simp only [save, hnowhere, hstop]
  | ok t =>
      obtain ⟨hroot, htaken⟩ := hstands t ht
      generalize happ : w.application cat = app
      have hreg : app.registry = w.registry := happ ▸ rfl
      have ht : WriteTarget.of app.connections ctx o = .ok t := happ ▸ ht
      rw [← hreg] at hs hroot htaken
      exact save_sameOn ht (row_ignores hs hkey hroot htaken) w hreg.symm rfl

end Application

/-! ## Notes with fields of every mode -/

namespace SealedNotes

open Registry (built modelOf tableOf)

def decls : List ModelDecl :=
  [{ name := "note", fields := [.autoKey "id", .of "title" .char, { Field.of "author" .char with null := true },
      { Field.of "views" .integer with null := true }] }]

/-- One note. -/
def world : World where
  registry := built decls
  databases := [("default", { Database.empty with store :=
    ⟨[("note", tableOf [(1, [("id", .int 1), ("title", .text "Old"), ("author", .text "Ann"), ("views", .int 3)])])]⟩ })]
  main := "default"
  clock := default
  tick := 0

def note : Model := modelOf (built decls) "note"

/-- The title is changed at any time, the author is given once, the views are only read. -/
def sealed : Schema :=
  match Schema.build (built decls) {} "Note" note
    [{ name := "title" }, { name := "author", mode := some "ra" }, { name := "views", mode := some "r" }] with
  | .ok s => s
  | .error _ => default

theorem declared_sealed : sealed.Declared world.registry := by
  have hbuild : Schema.build (built decls) {} "Note" note
      [{ name := "title" }, { name := "author", mode := some "ra" }, { name := "views", mode := some "r" }] =
      .ok sealed := by rfl
  exact .built (List.mem_singleton.mpr rfl) hbuild

def honest : Record := [("id", .int 1), ("title", .text "New")]

/-- The same with an author, views and a field that is not there. -/
def forged : Record := [("author", .text "Eve"), ("id", .int 1), ("views", .int 9), ("title", .text "New"), ("x", .null)]

/-- An update of a note ignores what it must not change. -/
theorem update_ignores_forged :
    (sealed.keyOf? forged = sealed.keyOf? honest ∧
      sealed.operationOn world.registry (world.database "default").store {} honest = .update ∧
      sealed.taken .update forged = sealed.taken .update honest) ∧
    world.runJob ((world.application {}).save sealed forged {} {}) =
      world.runJob ((world.application {}).save sealed honest {} {}) := by
  have hop : sealed.operationOn world.registry (world.database "default").store {} honest = .update := by decide +kernel
  have htaken : sealed.taken .update forged = sealed.taken .update honest := by decide +kernel
  refine ⟨⟨by decide +kernel, hop, htaken⟩, ?_⟩
  refine Application.save_ignores_forbidden declared_sealed (by decide +kernel) fun t ht => ?_
  obtain rfl : ⟨"default", true⟩ = t := Except.ok.inj ht
  refine ⟨fun pk _ hmem => hmem, ?_⟩
  show sealed.taken (sealed.operationOn world.registry (world.database "default").store {} honest) forged =
    sealed.taken (sealed.operationOn world.registry (world.database "default").store {} honest) honest
  rw [hop, htaken]

end SealedNotes

/-! ## A child without its parent -/

namespace LostDrawer

open Database (furniture shelf drawer zeroKey zeroRun)

/-- A drawer whose shelf is not there. -/
def world : World where
  registry := ⟨[shelf, drawer]⟩
  databases := [("default", Database.empty.play ⟨[shelf, drawer]⟩ zeroRun)]
  main := "default"
  clock := default
  tick := 0

/-- What stands in a drawer is given once. -/
def fields : List FieldDecl := [{ name := "n" }, { name := "c", mode := some "ra" }]

def drawerSchema : Schema :=
  match Schema.build world.registry {} "Drawer" drawer fields with
  | .ok s => s
  | .error _ => default

def filled (c : Int64) : Record := [("id", zeroKey true), ("n", .int 3), ("c", .int c)]

/-- The content of the drawer after a save. -/
def content (c : Int64) : Value :=
  Store.cell world.registry
    ((world.runJob ((world.application {}).save drawerSchema (filled c) {} {})).2.database "default").store
    drawer (zeroKey true) "c"

/-- An update finds no row under a key that the table of the child alone holds, so the row is created once more,
with what an update must not change. -/
theorem orphan_takes_forbidden :
    Schema.build world.registry {} "Drawer" drawer fields = .ok drawerSchema ∧
      drawerSchema.keyOf? (filled 2) = drawerSchema.keyOf? (filled 1) ∧
      drawerSchema.operationOn world.registry (world.database "default").store {} (filled 1) = .update ∧
      drawerSchema.taken .update (filled 2) = drawerSchema.taken .update (filled 1) ∧
      content 1 = .int 1 ∧ content 2 = .int 2 := by
  refine ⟨rfl, ?_⟩
  decide +kernel

end LostDrawer

end RecordMapper
