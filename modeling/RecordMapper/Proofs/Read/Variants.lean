import RecordMapper.Proofs.Read.Histories
import RecordMapper.Proofs.Read.InStep
import RecordMapper.Proofs.Read.Leftovers
import RecordMapper.Proofs.Schema.Variants
import RecordMapper.Proofs.Steps.Twins

/-!
# Reading variants — a schema and its variant for reading

The variant of a schema for reading leaves out the fields that are only
written, which a read of the schema does not ask for. Both are read in
step, each with itself where it refers to itself, as long as the variant
has what properties depend on. A row that another schema leads to, in
contrast, is looked up under the identity of the schema it is declared
with; so the reads can part where such a row is one of the schema's own.
-/

namespace RecordMapper

open ReadPlan (Needed requested neededNames)

/-- The contexts in which a read of a schema reads the schema itself, through references to itself alone. -/
inductive Schema.ReadsItself (s : Schema) (ctx : Context) : Context → Prop
  | here : ReadsItself s ctx ctx
  | again {c : Context} {f : SchemaField} (h : ReadsItself s ctx c) (needed : Needed s c f)
      (itself : f.nested = some .self) : ReadsItself s ctx (c.derive f.name)

/-- The schemas that a read of a schema goes on with in some context, once it has followed a reference to
another schema. -/
inductive Catalog.ReadsOther (cat : Catalog) (s : Schema) (ctx : Context) : Schema → Context → Prop
  | leaves {c : Context} {f : SchemaField} {r : NestedRef} {t : Schema} (h : s.ReadsItself ctx c)
      (needed : Needed s c f) (refers : f.nested = some r) (other : r ≠ .self) (found : cat.resolve s r = .ok t) :
      ReadsOther cat s ctx t (c.derive f.name)
  | goes {t u : Schema} {c : Context} {f : SchemaField} {r : NestedRef} (h : ReadsOther cat s ctx t c)
      (needed : Needed t c f) (refers : f.nested = some r) (found : cat.resolve t r = .ok u) :
      ReadsOther cat s ctx u (c.derive f.name)

/-- Every field that a property asked for depends on takes part in reading. -/
def Schema.DepsRead (s : Schema) (ctx : Context) : Prop :=
  ∀ f ∈ requested s ctx, ∀ p, f.property = some p → ∀ g ∈ s.fieldList, g.name ∈ p.deps → g.participates .read

/-- No row behind another schema is looked up among the schema's own rows, or among those of its variant. -/
def Catalog.Apart (cat : Catalog) (s v : Schema) (ctx : Context) : Prop :=
  ∀ t c, cat.ReadsOther s ctx t c → ∀ c', s.ReadsItself ctx c' →
    c.guardKey t.id ≠ c'.guardKey s.id ∧ c.guardKey t.id ≠ c'.guardKey v.id

/-! ## Plans of a variant -/

namespace Schema

variable {s v : Schema} {ctx : Context}

theorem Narrows.fieldList {op : Operation} (h : s.Narrows op v) :
    v.fieldList = s.fieldList.filter (·.participates op) := by
  rw [Schema.fieldList, Schema.fieldList, h.fields, List.filter_map]
  rfl

/-- The same fields are asked for. -/
theorem Narrows.requested (h : s.Narrows .read v) : requested v ctx = requested s ctx := by
  rw [ReadPlan.requested, ReadPlan.requested, h.fieldList, List.filter_filter]
  refine List.filter_congr fun f _ => ?_
  show ((f.isPrimaryKey || f.mode.read) && _ && (f.isPrimaryKey || f.mode.read)) = _
  rw [Bool.and_comm, ← Bool.and_assoc, Bool.and_self]

/-- The same fields are needed, if the fields that properties depend on take part. -/
theorem Narrows.needed (h : s.Narrows .read v) (hnames : (s.fieldList.map (·.name)).Nodup) (hdeps : s.DepsRead ctx) :
    v.fieldList.filter (fun f => (neededNames (ReadPlan.requested s ctx)).contains f.name) =
      s.fieldList.filter fun f => (neededNames (ReadPlan.requested s ctx)).contains f.name := by
  rw [h.fieldList, List.filter_filter]
  refine List.filter_congr fun f hf => ?_
  by_cases hneeded : f.name ∈ neededNames (ReadPlan.requested s ctx)
  · have hread : f.participates .read := by
      rcases List.mem_append.mp hneeded with hasked | hdep
      · obtain ⟨g, hg, hname⟩ := List.mem_map.mp hasked
        obtain ⟨hmem, hg⟩ := List.mem_filter.mp hg
        rw [← List.inj_on_of_nodup_map hnames hmem hf hname]
        exact (Bool.and_eq_true_iff.mp hg).1
      · obtain ⟨g, hg, hdep⟩ := List.mem_flatMap.mp hdep
        cases hproperty : g.property with
        | none =>
            rw [hproperty] at hdep
            cases hdep
        | some p =>
            rw [hproperty] at hdep
            exact hdeps g hg p hproperty f hf hdep
    rw [hread, Bool.and_true]
  · rw [List.contains_eq_mem, decide_eq_false hneeded, Bool.false_and]

theorem Narrows.make (h : s.Narrows .read v) (hnames : (s.fieldList.map (·.name)).Nodup) (hdeps : s.DepsRead ctx)
    (reg : Registry) (sliced : Bool) (now : Instant) :
    ReadPlan.make reg v ctx sliced now = ReadPlan.make reg s ctx sliced now := by
  simp only [ReadPlan.make, h.requested, h.needed hnames hdeps, h.model]

end Schema

/-! ## Guards -/

theorem Context.guardKey_eq_iff (c c' : Context) (id id' : Nat) :
    c.guardKey id = c'.guardKey id ↔ c.guardKey id' = c'.guardKey id' := by
  simp [guardKey]

/-- A guard knows of a variant what another one knows of the schema, and the same of all others. -/
structure Guard.Mirrored (s v : Schema) (ctx : Context) (g g' : Guard) : Prop where
  own : ∀ c, s.ReadsItself ctx c → g'.rows (c.guardKey v.id) = g.rows (c.guardKey s.id)
  others : ∀ key, (∀ c, s.ReadsItself ctx c → key ≠ c.guardKey s.id ∧ key ≠ c.guardKey v.id) → g'.rows key = g.rows key

namespace Guard

variable {s v : Schema} {ctx : Context} {g g' : Guard}

theorem mirrored_empty : Mirrored s v ctx .empty .empty := ⟨fun _ _ => rfl, fun _ _ => rfl⟩

/-- What is made of the schema's own rows is made of the variant's. -/
theorem Mirrored.insertOwn (h : Mirrored s v ctx g g') {c : Context} (hc : s.ReadsItself ctx c)
    (change : Keyed Record → Keyed Record) :
    Mirrored s v ctx ⟨insertEntry g.families (c.guardKey s.id) (change (g.rows (c.guardKey s.id)))⟩
      ⟨insertEntry g'.families (c.guardKey v.id) (change (g'.rows (c.guardKey v.id)))⟩ := by
  refine ⟨fun c' hc' => ?_, fun key hkey => ?_⟩
  · rw [rows_insert, rows_insert, h.own c hc]
    by_cases hsame : c'.guardKey v.id = c.guardKey v.id
    · rw [if_pos hsame, if_pos ((c'.guardKey_eq_iff c v.id s.id).mp hsame)]
    · rw [if_neg hsame, if_neg fun h => hsame ((c'.guardKey_eq_iff c s.id v.id).mp h)]
      exact h.own c' hc'
  · rw [rows_insert, rows_insert, if_neg (hkey c hc).1, if_neg (hkey c hc).2]
    exact h.others key hkey

/-- What is made of rows under another key leaves the own ones alone. -/
theorem Mirrored.insertOther (h : Mirrored s v ctx g g') {key : GuardKey}
    (hkey : ∀ c, s.ReadsItself ctx c → key ≠ c.guardKey s.id ∧ key ≠ c.guardKey v.id)
    (change : Keyed Record → Keyed Record) :
    Mirrored s v ctx ⟨insertEntry g.families key (change (g.rows key))⟩
      ⟨insertEntry g'.families key (change (g'.rows key))⟩ := by
  refine ⟨fun c hc => ?_, fun key' hkey' => ?_⟩
  · rw [rows_insert, rows_insert, if_neg (hkey c hc).2.symm, if_neg (hkey c hc).1.symm]
    exact h.own c hc
  · rw [rows_insert, rows_insert, h.others key hkey]
    by_cases hsame : key' = key
    · rw [if_pos hsame, if_pos hsame]
    · rw [if_neg hsame, if_neg hsame]
      exact h.others key' hkey'

end Guard

/-! ## Nested schemas -/

namespace Application

variable {app : Application} {s t t' v : Schema} {f : SchemaField} {r : NestedRef}

/-- A nested schema is what its reference means, if that fits the field. -/
theorem nested_of_some (h : f.nested = some r) : app.nested? s f = app.catalog.resolve s r >>= fun t =>
    (match f.relatedModel with
      | some related => SchemaField.checkBinding app.registry s.model f.name related t.model
      | none => .ok ()) >>= fun _ => .ok (some t) := by
  rw [nested?, h]
  refine congrArg (app.catalog.resolve s r >>= ·) (funext fun t => ?_)
  cases f.relatedModel <;> rfl

/-- References of schemas over one model that mean schemas over one model lead to them, or both to none. -/
theorem both_nested {Q : Schema → Schema → Prop} (h : f.nested = some r) (hmodel : v.model = s.model)
    (hfound : Outcome.Both (fun t t' => Q t t' ∧ t'.model = t.model) (app.catalog.resolve s r)
      (app.catalog.resolve v r)) : Outcome.Both (Option.Rel Q) (app.nested? s f) (app.nested? v f) := by
  rw [nested_of_some h, nested_of_some h]
  refine hfound.bind fun t t' ⟨hQ, hsame⟩ => ?_
  rw [hmodel, hsame]
  exact (Outcome.both_refl _).bind fun _ _ _ => .some hQ

end Application

/-! ## In step -/

section Pairs

variable {app : Application} {s v : Schema} {ctx : Context}

/-- A schema stands for itself where it is read behind another, and the variant for the schema where it reads
itself. -/
inductive Catalog.Stands (cat : Catalog) (s v : Schema) (ctx : Context) : Schema → Schema → Context → Prop
  | variant {c : Context} (h : s.ReadsItself ctx c) : Stands cat s v ctx s v c
  | same {t : Schema} {c : Context} (h : cat.ReadsOther s ctx t c) : Stands cat s v ctx t t c

theorem Catalog.both_resolve (cat : Catalog) {r : NestedRef} (hr : r ≠ .self) (s v : Schema) :
    Outcome.Both (fun t t' => t' = t ∧ cat.resolve s r = .ok t) (cat.resolve s r) (cat.resolve v r) := by
  cases r with
  | self => exact absurd rfl hr
  | schema id =>
      rw [resolve, resolve]
      cases cat.schema? id with
      | some t => exact ⟨rfl, rfl⟩
      | none => exact trivial
  | slot name =>
      rw [resolve, resolve]
      cases (cat.slots.lookup name).bind cat.schema? with
      | some t => exact ⟨rfl, rfl⟩
      | none => exact trivial

/-- What schemas that stand for each other nest stands for each other. -/
theorem Catalog.Stands.nested (hmodel : v.model = s.model) {t t' : Schema} {c : Context}
    (h : app.catalog.Stands s v ctx t t' c) {f : SchemaField} (hf : Needed t c f) :
    Outcome.Both (Option.Rel fun u u' => app.catalog.Stands s v ctx u u' (c.derive f.name)) (app.nested? t f)
      (app.nested? t' f) := by
  cases hnested : f.nested with
  | none =>
      rw [Application.nested_of_none hnested, Application.nested_of_none hnested]
      exact .none
  | some r =>
      cases h with
      | variant h =>
          refine Application.both_nested hnested hmodel ?_
          by_cases hr : r = .self
          · subst hr
            exact ⟨.variant (.again h hf hnested), hmodel⟩
          · refine (app.catalog.both_resolve hr s v).imp fun u u' ⟨hsame, hfound⟩ => ?_
            subst hsame
            exact ⟨.same (.leaves h hf hnested hr hfound), rfl⟩
      | same h =>
          refine Application.both_nested hnested rfl ?_
          cases hfound : app.catalog.resolve t r with
          | ok u => exact ⟨.same (.goes h hf hnested hfound), rfl⟩
          | error e => exact trivial

variable (hv : s.Narrows .read v) (hnames : (s.fieldList.map (·.name)).Nodup)
  (hdeps : ∀ c, s.ReadsItself ctx c → s.DepsRead c) (hapart : app.catalog.Apart s v ctx)
include hv hnames hdeps hapart

theorem pairing_stands : Reading.Pairing app (Guard.Mirrored s v ctx) (app.catalog.Stands s v ctx) where
  model h := by
    cases h with
    | variant _ => exact hv.model
    | same _ => rfl
  pkName h := by
    cases h with
    | variant _ => exact hv.pkName
    | same _ => rfl
  plan h sliced now := by
    cases h with
    | variant h => exact hv.make hnames (hdeps _ h) app.registry sliced now
    | same _ => rfl
  rows h hR := by
    cases h with
    | variant h => exact hR.own _ h
    | same h => exact hR.others _ fun c' hc' => hapart _ _ h c' hc'
  register h hR rows := by
    let all (known : Keyed Record) := rows.foldl (fun acc e => insertEntry acc e.1 e.2) known
    let missing (known : Keyed Record) :=
      rows.foldl (fun acc e => if (acc.lookup e.1).isSome then acc else acc ++ [e]) known
    cases h with
    | variant h => exact ⟨hR.insertOwn h all, hR.insertOwn h missing⟩
    | same h =>
        have hkey := fun c' hc' => hapart _ _ h c' hc'
        exact ⟨hR.insertOther hkey all, hR.insertOther hkey missing⟩
  nested h hf := h.nested hv.model hf

end Pairs

namespace World

/-- A schema and its variant for reading yield the same rows, or both fail, and ask the same of the databases: if
every field that a property asked for depends on takes part in reading, and no row that another schema leads to is
looked up among the schema's own rows or those of the variant. -/
theorem readRows_variant {w : World} {cat cat' : Catalog} (hcat : cat.Made w.registry) {s v : Schema}
    (hs : cat.schema? s.id = some s) (hv : cat.variant s .read = (v, cat')) {ctx : Context}
    (hdeps : ∀ c, s.ReadsItself ctx c → s.DepsRead c)
    (hapart : cat'.Apart s v ctx) (together : Bool) (src : Source) :
    (∀ rows, (w.readRows cat' together v src ctx .empty).1.1 = .ok rows ↔
      (w.readRows cat' together s src ctx .empty).1.1 = .ok rows) ∧
    (w.readRows cat' together v src ctx .empty).2 = (w.readRows cat' together s src ctx .empty).2 := by
  have hnarrows : s.Narrows .read v := by
    have hnarrows := hcat.narrows_variant hs .read
    rwa [hv] at hnarrows
  have hnames := (hcat.declared (s.id, s) (mem_of_lookup hs)).nodup_names
  have hpairing : Reading.Pairing (w.application cat') _ _ :=
    pairing_stands hnarrows hnames hdeps hapart
  obtain ⟨hrows, _, hworld⟩ := Reading.inStep_rowsWithin hpairing together (w.levels cat' ctx) (.variant .here) src
    w .empty .empty Guard.mirrored_empty
  exact ⟨fun rows => hrows.eq_ok_iff rows, hworld⟩

/-! ## An author with a note -/

namespace Notes

open Registry (built modelOf)
open Journal.Reached (shelves oneBook)

def plainBookFields : List FieldDecl := [{ name := "id" }, { name := "author" }]

/-- The schema of a book with the key of its author. -/
def plainBook : Schema :=
  match Schema.build (built shelves) {} "Book" (modelOf (built shelves) "book") plainBookFields with
  | .ok s => s
  | .error _ => default

def withBook : Catalog := ({} : Catalog).add plainBook

def authorFields : List FieldDecl :=
  [{ name := "id" },
    { name := "books", nested := some (.schema 1) },
    { name := "first", source := .property ⟨["books"], fun row => (row.getD "books").items.headD .null⟩ },
    { name := "note", mode := some "w" }]

/-- The schema of an author with a note that is only written. -/
def author : Schema :=
  match Schema.build (built shelves) withBook "Author" (modelOf (built shelves) "author") authorFields with
  | .ok s => s
  | .error _ => default

def catalog : Catalog := withBook.add author

/-- The variant of the author for reading, and the catalog that remembers it. -/
def forReading : Schema × Catalog := catalog.variant author .read

/-- Everything behind the author is a book. -/
theorem eq_plainBook {t : Schema} {c : Context} (h : forReading.2.ReadsOther author {} t c) : t = plainBook := by
  have hauthor : ∀ f ∈ author.fieldList, f.nested = none ∨ f.nested = some (.schema 1) := by decide +kernel
  have hbook : ∀ f ∈ plainBook.fieldList, f.nested = none := by decide +kernel
  have hfirst : forReading.2.schema? 1 = some plainBook := rfl
  induction h with
  | leaves _ needed refers other found =>
      rcases hauthor _ needed.1 with hnone | hsome
      · rw [hnone] at refers
        cases refers
      · rw [hsome] at refers
        cases refers
        rw [Catalog.resolve, hfirst] at found
        cases found
        rfl
  | goes _ needed refers _ ih =>
      subst ih
      rw [hbook _ needed.1] at refers
      cases refers

theorem readRows_variant_author :
    (catalog.Made oneBook.registry ∧ catalog.schema? author.id = some author ∧
      (∀ c, author.ReadsItself {} c → author.DepsRead c) ∧ forReading.2.Apart author forReading.1 {}) ∧
    forReading.1.fieldList.map (·.name) = ["id", "books", "first"] ∧
    (oneBook.readRows forReading.2 false forReading.1 (.key (.int 1)) {} .empty).1.1.toOption.map List.length = some 1 ∧
    ∀ rows, (oneBook.readRows forReading.2 false forReading.1 (.key (.int 1)) {} .empty).1.1 = .ok rows ↔
      (oneBook.readRows forReading.2 false author (.key (.int 1)) {} .empty).1.1 = .ok rows := by
  have hbook : Schema.build (built shelves) {} "Book" (modelOf (built shelves) "book") plainBookFields =
      .ok plainBook := rfl
  have hbuilt : Schema.build (built shelves) withBook "Author" (modelOf (built shelves) "author") authorFields =
      .ok author := rfl
  have hmade : catalog.Made oneBook.registry := .built (.built .empty (by decide) hbook) (by decide) hbuilt
  have hfound : catalog.schema? author.id = some author := rfl
  have hdeps : ∀ c, author.ReadsItself {} c → author.DepsRead c := by
    intro c _ f hf p hp g hg hdep
    have hall : ∀ f ∈ author.fieldList, ∀ dep ∈ (f.property.map (·.deps)).getD [],
        ∀ g ∈ author.fieldList, g.name = dep → g.participates .read := by decide +kernel
    refine hall f (List.mem_filter.mp hf).1 g.name ?_ g hg rfl
    rw [hp]
    exact hdep
  have hapart : forReading.2.Apart author forReading.1 {} := by
    intro t c ht c' _
    obtain rfl := eq_plainBook ht
    have hids : plainBook.id = 1 ∧ author.id = 2 ∧ forReading.1.id = 3 := ⟨rfl, rfl, rfl⟩
    simp [Context.guardKey, hids.1, hids.2.1, hids.2.2]
  have hvariant : catalog.variant author .read = (forReading.1, forReading.2) := rfl
  have hsame := (readRows_variant hmade hfound hvariant hdeps hapart false (.key (.int 1))).1
  exact ⟨⟨hmade, hfound, hdeps, hapart⟩, by decide +kernel, by decide +kernel, hsame⟩

end Notes

/-! ## An author behind her own book -/

namespace Circle

open Registry (built modelOf)
open Journal.Reached (shelves oneBook)

def bookFields : List FieldDecl := [{ name := "id" }, { name := "author", nested := some (.slot "author") }]

/-- The schema of a book with its author. -/
def book : Schema :=
  match Schema.build (built shelves) {} "Book" (modelOf (built shelves) "book") bookFields with
  | .ok s => s
  | .error _ => default

def authorFields : List FieldDecl := [{ name := "id" }, { name := "books", nested := some (.schema 1) }]

/-- The schema of an author with the books, which lead back to it. -/
def author : Schema :=
  match Schema.build (built shelves) (({} : Catalog).add book) "Author" (modelOf (built shelves) "author")
    authorFields with
  | .ok s => s
  | .error _ => default

def catalog : Catalog := { (({} : Catalog).add book).add author with slots := [("author", 2)] }

/-- The variant of the author for reading, and the catalog that remembers it. -/
def forReading : Schema × Catalog := catalog.variant author .read

/-- The author behind the book is the row that is being read, as it was noted. The variant is not what the book
refers to: the row behind the book is read once more, and only its book is met as it was noted. -/
theorem variant_reads_deeper :
    catalog.Made oneBook.registry ∧ catalog.schema? author.id = some author ∧ oneBook.Still ∧
    (∀ f ∈ author.fieldList, f.property.isNone) ∧
    (oneBook.readRows forReading.2 false author (.key (.int 1)) {} .empty).1.1.toOption =
      some [[("id", .int 1), ("books", .list [.map [("id", .int 1),
        ("author", .map [("id", .int 1), ("books", .list [])])]])]] ∧
    (oneBook.readRows forReading.2 false forReading.1 (.key (.int 1)) {} .empty).1.1.toOption =
      some [[("id", .int 1), ("books", .list [.map [("id", .int 1),
        ("author", .map [("id", .int 1), ("books", .list [.map [("id", .int 1), ("author", .null)]])])]])]] := by
  have hbook : Schema.build (built shelves) {} "Book" (modelOf (built shelves) "book") bookFields = .ok book := rfl
  have hauthor : Schema.build (built shelves) (({} : Catalog).add book) "Author" (modelOf (built shelves) "author")
      authorFields = .ok author := rfl
  have hmade : Catalog.Made (built shelves) ((({} : Catalog).add book).add author) :=
    .built (.built .empty (by decide) hbook) (by decide) hauthor
  exact ⟨.filled hmade rfl, rfl, rfl, by decide +kernel, by decide +kernel, by decide +kernel⟩

end Circle

end World

end RecordMapper
