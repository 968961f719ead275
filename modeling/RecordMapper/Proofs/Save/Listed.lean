import RecordMapper.Proofs.Read.Unfiltered
import RecordMapper.Proofs.Save.Columns
import RecordMapper.Proofs.Store.Cascades

/-!
# Listed rows — what a save of a relation does not delete

Saving the objects of a relation ends with deleting the related rows that
are not among the saved ones. A row whose object was saved is among them,
so it stays if nothing else in the save deletes rows of its model. Two
kinds of listed rows are not saved: those whose object failed and was
passed over, and those that stand in the list as bare keys beside
objects. Both are deleted, as the library at the end shows.
-/

namespace RecordMapper

open Store

/-! ## Statements that keep a key -/

namespace Call

variable {reg : Registry} {related : Model} {k : Value}

/-- The statements that keep a key of a model. -/
abbrev KeepsKey (reg : Registry) (related : Model) (k : Value) : Call → Prop :=
  Call.Preserving reg fun st => k ∈ st.keys related

theorem looks_keepsKey : Call.Looks (KeepsKey reg related k) where
  fetch := changing_fetch
  count := changing_count

theorem writes_keepsKey (m : Model) : Call.Writes (KeepsKey reg related k) m where
  insert _ := changing_insert fun h hk => keys_subset_insert h related hk
  insertChild _ := changing_insertChild fun h hk => keys_subset_insertChild h related hk
  update _ _ _ := changing_update fun h hk => keys_subset_update h related hk

/-- A save keeps the keys of a model that its deletes cannot reach. -/
theorem allowed_keepsKey {app : Application} {s : Schema} {data : Record}
    (h : ∀ m, Save.Prunes app s data m → Spares reg m related) :
    Save.Allowed (KeepsKey reg related k) app s data where
  looks := looks_keepsKey
  writes m _ := writes_keepsKey m
  deletes _ hqs := changing_delete fun hdelete hk => by
    have hkeys := keys_delete_of_spares (h _ hqs) hdelete
    simpa only [hkeys] using hk

end Call

namespace Job

open World

variable {database : String} {reg : Registry} {related : Model} {k : Value} {α : Type}

/-- An insert of a row with a key yields that key. -/
theorem returns_insert {m : Model} {values : Record} (h : givenKey? m values = some k) :
    Returns (· = k) (Job.insert database m values) := by
  intro w pk hpk
  have hask : (w.perform database (.insert m values)).1 = .ok pk := hpk
  by_cases hknown : database ∈ w.databases.map Prod.fst
  · rw [perform_known hknown] at hask
    cases hinsert : Store.insert w.registry w.clock (w.database database).store m values with
    | error f =>
        simp only [Database.perform, Database.logged, Database.changed, hinsert] at hask
        cases hask
    | ok r =>
        obtain ⟨key, st⟩ := r
        simp only [Database.perform, Database.logged, Database.changed, hinsert] at hask
        cases hask
        obtain ⟨_, _, hkey, _⟩ := insert_eq_ok hinsert
        rw [hkey, newKey, h]
  · rw [perform_unknown hknown] at hask
    cases hask

end Job

namespace Save

variable {app : Application} {t : WriteTarget} {s : Schema} {o : SaveOptions} {data extra : Record}
  {k : Value}

/-! ## Saved keys -/

/-- A row is written under the key that its data carries. -/
theorem returns_pk_writeRow (hkey : s.keyOf? data = some k) (hextra : ∀ e ∈ extra, e.1 ≠ s.model.pkName) :
    Job.Returns (fun row => row.pk = k) (writeRow app t s o data extra) := by
  have hsame : ∀ pk, s.keyOf? data = some pk → pk = k := fun pk h => Option.some.inj (h.symm.trans hkey)
  have hnull : k.isNull = false := by
    have := (Option.filter_eq_some_iff.mp hkey).2
    simpa using this
  refine returns_writeRow ?_ (fun pk h => returns_extendParent (hsame pk h)) hsame
  rw [hkey]
  exact (Job.Returns.any _).bind fun now _ =>
    (Job.returns_insert (SaveParts.givenKey?_createColumns hnull hextra now _)).bind fun _ hpk => .pure hpk

theorem returns_pk_rowWithin (levels : Nat) (hkey : s.keyOf? data = some k)
    (hextra : ∀ e ∈ extra, e.1 ≠ s.model.pkName) :
    Job.Returns (· = k) (rowWithin app t (levels + 1) s o data extra) :=
  (returns_pk_writeRow hkey hextra).bind fun _ hpk =>
    .ite ((Job.Returns.any _).bind fun _ _ => .pure hpk) (.pure hpk)

/-- Where failures are not passed over, the key of every item is among those that are saved. -/
theorem returns_each {save : Record → Job Value} (hskip : o.skipFailed = false) {items : List Record}
    {item : Record} (hitem : item ∈ items) (h : Job.Returns (· = k) (save item)) :
    Job.Returns (fun saved => k ∈ saved.filterMap id) (each save t o items) := by
  have hall : Job.Returns (fun saved => ∃ pk ∈ saved, pk = some k) (each save t o items) := by
    refine Job.Returns.mapM hitem ?_
    rw [hskip, if_neg Bool.false_ne_true]
    exact h.bind fun _ hpk => .pure (congrArg some hpk)
  refine hall.imp fun saved hsaved => ?_
  obtain ⟨pk, hmem, rfl⟩ := hsaved
  exact List.mem_filterMap.mpr ⟨some k, hmem, rfl⟩

/-! ## Saved relations -/

section Relations

variable {related : Model} {field : String} {nullable : Bool} {f : SchemaField} {nested : Schema}
  {item : Record} {v : Value} {save : Schema → SaveOptions → Record → Record → Job Value}

/-- Saving the objects of a relation keeps a row that is among them. -/
theorem objects_keepsKey (hwrite : f.relationWrite = some (.reverse related field nullable))
    (hnested : app.nested? s f = .ok (some nested)) (hskip : o.skipFailed = false)
    (hitem : item ∈ v.objects) (hplain : k.isPlain) (hcolumn : KeyIsColumn app.registry related)
    (hcascades : ∀ e ∈ referringColumns app.registry (family app.registry related),
      Spares app.registry e.1 related)
    (hmade : ∀ item ∈ v.objects, ∀ o extra,
      Job.Made t.database (Call.KeepsKey app.registry related k) (save nested o item extra))
    {pk : Value} (hreturns : Job.Returns (· = k) (save nested o.nested item [(field, pk)])) (created : Bool) :
    Job.Made t.database (Call.KeepsKey app.registry related k)
      (objects app t save s o pk created f v) := by
  refine .bindOf (.ofOutcome _) (P := fun r => app.nested? s f = .ok r) (fun _ _ h => h) fun r hr => ?_
  obtain rfl : some nested = r := Except.ok.inj (hnested.symm.trans hr)
  rw [hwrite]
  refine .bindOf (each_made _ fun item hitem => hmade item hitem _ _)
    (returns_each (o := o.nested) hskip hitem hreturns) fun saved hsaved => ?_
  refine RelationWrite.complete_made Call.looks_keepsKey (Call.writes_keepsKey _).writable
    (fun _ _ _ h => by cases h) (fun _ _ _ h => ?_) created
  cases h
  exact Call.changing_delete fun hdelete hk =>
    mem_keys_delete_otherRows hcolumn hplain hcascades hsaved hk hdelete

end Relations

/-! ## Whole saves -/

/-- Nothing that a save of some data deletes leads to rows of a model, but for the relation that one entry
gives objects for: not the relations of other entries, not those of the objects, and not the rows that refer
to rows of the model. -/
structure PrunesAlone (app : Application) (s : Schema) (data : Record) (name : String) (nested : Schema)
    (v : Value) (related : Model) : Prop where
  others : ∀ m, Prunes app s (data.filter (·.1 != name)) m → Spares app.registry m related
  objects : ∀ item ∈ v.objects, ∀ m, Prunes app nested item m → Spares app.registry m related
  cascades : ∀ e ∈ referringColumns app.registry (family app.registry related), Spares app.registry e.1 related

section Whole

variable {related : Model} {field name : String} {nullable : Bool} {f : SchemaField} {nested : Schema}
  {v : Value} {levels : Nat}
  (hwrite : f.relationWrite = some (.reverse related field nullable))
  (hnested : app.nested? s f = .ok (some nested)) (hv : (name, v) ∈ data) (hplain : k.isPlain)
  (hcolumn : KeyIsColumn app.registry related) (hlink : field ≠ nested.model.pkName)
  (halone : PrunesAlone app s data name nested v related)
  (hlisted : v.holdsObjects = false ∨ o.skipFailed = false ∧ ∃ item ∈ v.objects, nested.keyOf? item = some k)
  (hlevels : Value.entriesDepth data ≤ levels)

include hwrite hnested hv hplain hcolumn hlink halone hlisted hlevels

/-- The entry of a relation keeps a row if it gives no objects, or if an object of the row is among those it
gives and failures are not passed over. -/
theorem entryMade_listed :
    EntryMade (Call.KeepsKey app.registry related k) app t levels s o f v where
  keys w hw pk created := by
    obtain rfl : RelationWrite.reverse related field nullable = w := Option.some.inj (hwrite.symm.trans hw)
    exact RelationWrite.assign_made Call.looks_keepsKey (Call.writes_keepsKey _).writable
      (fun _ _ _ h => by cases h) pk _ created
  objects hholds pk created := by
    rcases hlisted with hnone | ⟨hskip, item, hitem, hkey⟩
    · rw [hnone] at hholds
      cases hholds
    · -- An object in the data is a level deep, so its own save is not out of levels.
      have hpos := entriesDepth_lt_of_mem_objects hitem
      have hle := depth_le_entriesDepth hv
      obtain ⟨below, rfl⟩ : ∃ below, levels = below + 1 := ⟨levels - 1, by omega⟩
      refine objects_keepsKey hwrite hnested hskip hitem hplain hcolumn halone.cascades
        (fun item hitem o extra => ?_) (returns_pk_rowWithin below hkey fun e he => ?_) created
      · exact rowWithin_made _ (Call.allowed_keepsKey (halone.objects item hitem)) o extra
      · obtain rfl := List.mem_singleton.mp he
        exact hlink

/-- A save keeps a row of a relation that is not given by objects, or whose object is among those given
and not passed over. -/
theorem rowWithin_keepsKey (hfield : s.field? name = some f) (hnames : (data.map Prod.fst).Nodup) :
    Job.Keeps (World.Preserves t.database app.registry fun st => k ∈ st.keys related)
      (rowWithin app t (levels + 1) s o data []) := by
  refine Job.Made.preserves (rowWithin_made_of_entries Call.looks_keepsKey
    (Call.writes_keepsKey _) (fun other u g hu hg => ?_) [])
  by_cases hother : other = name
  · -- Names stand once in the data, so the entry is the one that is given for the relation.
    subst hother
    obtain rfl : f = g := Option.some.inj (hfield.symm.trans hg)
    obtain rfl : u = v := congrArg Prod.snd (List.inj_on_of_nodup_map hnames hu hv rfl)
    exact entryMade_listed hwrite hnested hv hplain hcolumn hlink halone hlisted hlevels
  · have hrest : (other, u) ∈ data.filter (·.1 != name) := List.mem_filter.mpr ⟨hu, bne_iff_ne.mpr hother⟩
    exact entryMade_of_allowed (rowWithin_made levels) (Call.allowed_keepsKey halone.others) hrest hg

end Whole

end Save

namespace Application

variable {app : Application} {s nested : Schema} {data : Record} {ctx : Context} {o : SaveOptions}
  {related : Model} {field name : String} {nullable : Bool} {f : SchemaField} {v k : Value} {w : World}

/-- A save deletes no row of a relation that is given without objects, and where failures are not passed
over no row whose object is given, unless something else in the save deletes rows of its model. -/
theorem save_keeps_listed (hfield : s.field? name = some f)
    (hwrite : f.relationWrite = some (.reverse related field nullable))
    (hnested : app.nested? s f = .ok (some nested)) (hnames : (data.map Prod.fst).Nodup)
    (hv : (name, v) ∈ data) (hplain : k.isPlain) (hcolumn : KeyIsColumn app.registry related)
    (hlink : field ≠ nested.model.pkName) (halone : Save.PrunesAlone app s data name nested v related)
    (hlisted : v.holdsObjects = false ∨
      o.skipFailed = false ∧ ∃ item ∈ v.objects, nested.keyOf? item = some k)
    (hreg : w.registry = app.registry) (database : String)
    (hk : k ∈ (w.database database).store.keys related) :
    k ∈ ((w.runJob (app.save s data ctx o)).2.database database).store.keys related := by
  refine save_changes (S := fun st st' => k ∈ st.keys related → k ∈ st'.keys related) (fun _ => id) (fun t => ?_)
    hreg database hk
  exact Save.rowWithin_keepsKey hwrite hnested hv hplain hcolumn hlink halone hlisted (Nat.le_refl _) hfield hnames

end Application

/-! ## Listed books that are deleted -/

namespace Library

open Registry (built modelOf tableOf)

def decls : List ModelDecl :=
  [{ name := "author", fields := [.autoKey "id"] },
    { name := "book"
      fields := [.autoKey "id", .of "title" .char, .of "author" (.foreignKey "author" (some "books"))] }]

def book : Model := modelOf (built decls) "book"

/-- Two authors with two books each. -/
def world : World where
  registry := built decls
  databases := [("default",
    ⟨⟨[("author", tableOf [(1, []), (2, [])]),
      ("book", tableOf
        [(1, [("title", .text "A"), ("author", .int 1)]), (2, [("title", .text "B"), ("author", .int 1)]),
          (3, [("title", .text "C"), ("author", .int 2)]), (4, [("title", .text "D"), ("author", .int 2)])])]⟩,
      [], []⟩)]
  main := "default"
  clock := default
  tick := 0

def bookSchema : Schema :=
  match Schema.build (built decls) {} "Book" book [{ name := "id" }, { name := "title" }] with
  | .ok s => s
  | .error _ => default

def catalog : Catalog := { schemas := [(1, bookSchema)], next := 2 }

/-- The schema of an author with the books. -/
def authorSchema : Schema :=
  match Schema.build (built decls) catalog "Author" (modelOf (built decls) "author")
    [{ name := "id" }, { name := "books", nested := some (.schema 1) }] with
  | .ok s => s
  | .error _ => default

/-- The books of authors. -/
def booksField : SchemaField := (authorSchema.field? "books").getD default

def app : Application := world.application catalog

/-- An author with books. -/
def authorData (id : Int64) (books : List Value) : Record := [("id", .int id), ("books", .list books)]

def bookData (id : Int64) (title : Value) : Record := [("id", .int id), ("title", title)]

/-- The books of the database. -/
def keys (w : World) : List Value := (w.database "default").store.keys book

/-- The author of a book. -/
def authorOf (w : World) (id : Int64) : Value :=
  cell (built decls) (w.database "default").store book (.int id) "author"

/-- The author of two books saved with their objects, of which the second one has no title. -/
def skipping : Job Value :=
  app.save authorSchema (authorData 1 [.map (bookData 1 (.text "A2")), .map (bookData 2 .null)]) {}
    { skipFailed := true }

/-- The author of two books saved with the object of one and the bare key of the other. -/
def mixed : Job Value :=
  app.save authorSchema (authorData 2 [.map (bookData 3 (.text "C2")), .int 4]) {} {}

/-- Saves that succeed and delete a listed book of the author that is saved. -/
theorem listed_rows_deleted :
    ((world.runJob skipping).1.toOption = some (.int 1) ∧ bookSchema.keyOf? (bookData 2 .null) = some (.int 2) ∧
      .int 2 ∈ keys world ∧ authorOf world 2 = .int 1 ∧ .int 2 ∉ keys (world.runJob skipping).2) ∧
    ((world.runJob mixed).1.toOption = some (.int 2) ∧ .int 4 ∈ keys world ∧ authorOf world 4 = .int 2 ∧
      .int 4 ∉ keys (world.runJob mixed).2) := by
  decide +kernel

theorem prunesAlone_first : Save.PrunesAlone app authorSchema (authorData 1 [.map (bookData 1 (.text "A2"))])
    "books" bookSchema (.list [.map (bookData 1 (.text "A2"))]) book where
  others m hm := by
    refine absurd hm (Save.not_prunes (fun e he => ?_) m)
    obtain rfl := List.mem_singleton.mp he
    exact ⟨rfl, rfl⟩
  objects item hitem m hm := by
    obtain rfl := List.mem_singleton.mp hitem
    refine absurd hm (Save.not_prunes (fun e he => ?_) m)
    rcases List.mem_pair.mp he with rfl | rfl <;> exact ⟨rfl, rfl⟩
  cascades e he := absurd he List.not_mem_nil

/-- A save of an author with one of two books keeps that one. -/
theorem save_keeps_first :
    (authorSchema.field? "books" = some booksField ∧
      booksField.relationWrite = some (.reverse book "author" false) ∧
      app.nested? authorSchema booksField = .ok (some bookSchema) ∧ KeyIsColumn app.registry book ∧
      bookSchema.keyOf? (bookData 1 (.text "A2")) = some (.int 1) ∧ .int 1 ∈ keys world) ∧
    .int 1 ∈ keys (world.runJob
      (app.save authorSchema (authorData 1 [.map (bookData 1 (.text "A2"))]) {} {})).2 := by
  have hfield : authorSchema.field? "books" = some booksField := rfl
  have hwrite : booksField.relationWrite = some (.reverse book "author" false) := rfl
  have hnested : app.nested? authorSchema booksField = .ok (some bookSchema) := rfl
  have hnames : ((authorData 1 [.map (bookData 1 (.text "A2"))]).map Prod.fst).Nodup := by decide
  have hcolumn : KeyIsColumn app.registry book := ⟨_, rfl, rfl, rfl, rfl⟩
  have hkey : bookSchema.keyOf? (bookData 1 (.text "A2")) = some (.int 1) := rfl
  have hbook : .int 1 ∈ keys world := by decide +kernel
  exact ⟨⟨hfield, hwrite, hnested, hcolumn, hkey, hbook⟩,
    Application.save_keeps_listed hfield hwrite hnested hnames (.tail _ (.head _)) rfl hcolumn (by decide)
      prunesAlone_first (.inr ⟨rfl, _, .head _, hkey⟩) rfl "default" hbook⟩

end Library

end RecordMapper
