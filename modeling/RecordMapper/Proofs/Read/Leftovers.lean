import RecordMapper.Proofs.Read.Levels
import RecordMapper.Proofs.Read.Provenance

/-!
# Leftovers — what failed calls leave to the fields after them

Reads that share a guard, one after another and however they fail, take
rows only from calls that finished them, from calls that are at them, and
from calls that failed (`Journal.Reached.rowSource_of_taken`). Rows of the
last kind have placeholders for good: a silent field that fails makes the
field after it, which would have failed itself, return them.
-/

namespace RecordMapper

variable {app : Application} {s : Schema} {key : SchemaField} {ctx : Context} {plan : ReadPlan}
  {rows : List Record} {m : Moment}

/-- From one moment to another running calls go on. -/
def Moment.Follows (m m' : Moment) : Prop := m.journal.Follows m'.journal

theorem Moment.composes_follows : Moment.Composes Moment.Follows where
  refl m := .refl m.journal
  trans h h' := h.trans h'

/-- Rows are finished under the keys they were noted under, as far as these are plain. -/
theorem mem_finished_keys (hkey : s.KeyField app.registry key)
    (hnames : (s.fieldList.map (·.name)).Nodup) (hplan : plan.Made s key ctx)
    (hforced : s.pkName ∉ ctx.forced.map Prod.fst) (hrows : PreparedKeys s key rows) {rows' : List Record}
    (hstay : KeysStay s key (rows.map (·.getD s.pkName)) rows') {pk : Value} (hpk : pk.isPlain)
    (hmem : pk ∈ (keyedBy s.pkName rows plan.finish).map Prod.fst) :
    pk ∈ (keyedBy s.pkName (rows'.map plan.finish) id).map Prod.fst := by
  rw [map_keyedBy] at hmem
  have hfinish : (rows'.map plan.finish).map (·.getD s.pkName) = rows'.map (·.getD s.pkName) := by
    rw [List.map_map]
    refine List.map_congr_left fun row _ => ?_
    rw [Function.comp_apply, ReadPlan.getD_finish hkey hnames hplan, if_neg hforced]
  rw [map_keyedBy, hfinish]
  have hapart := hrows.keysApart
  unfold KeysApart at hapart
  unfold KeysStay at hstay
  split at hstay
  · rename_i hisolated
    rw [if_pos hisolated] at hapart
    obtain ⟨row, hrow, rfl⟩ := List.mem_map.mp hmem
    rw [hapart row hrow] at hpk
    cases hpk
  · rwa [hstay]

namespace Journaling

/-- Whatever a read does, running calls go on. -/
theorem follows_rowsWithin (hkeys : app.registry.KeysFound) (hcat : app.catalog.Declared app.registry)
    (together : Bool) {levels : Nat} (hs : s.Declared app.registry)
    (hforced : s.pkName ∉ ctx.forced.map Prod.fst) (src : Source) :
    m.Follows ((rowsWithin app together levels s src ctx).exec m).2 := by
  induction levels generalizing s src ctx m with
  | zero => exact Journal.follows_tell (by simp) (by simp)
  | succ levels ih =>
      obtain ⟨key, hkey⟩ := hs.exists_keyField hkeys
      rw [rowsWithin, exec_call, exec_bind, exec_ofJob]
      generalize hresult : (m.world.runJob (app.prepare s src ctx)).1 = prepared
      rcases prepared with e | none | ⟨plan, rows⟩
      · exact Journal.follows_idle m.journal false
      · exact Journal.follows_idle m.journal true
      · have hplan := (Application.made_of_prepare hkey hresult).1
        have hrows := Application.keys_of_prepare hkey hresult
        have hread : ∀ m', Moment.Follows
            ⟨m.journal.enter.note (ctx.guardKey s.id) (keyedBy s.pkName rows plan.finish),
              (m.world.runJob (app.prepare s src ctx)).2⟩ m' →
            ∀ f nested, app.nested? s f = .ok (some nested) → ∀ missing,
              (∀ pk ∈ missing, m'.journal.guard.contains ((ctx.derive f.name).guardKey nested.id) pk = false) →
                LeadsTo Moment.Follows (fun _ => True) m'
                  (rowsWithin app together levels nested (.keys missing) (ctx.derive f.name))
                  (rowsWithin app together levels nested (.keys missing) (ctx.derive f.name)) := by
          intro m' _ f nested hnested missing _
          obtain ⟨r, _, hr⟩ := Application.exists_resolve hnested
          exact ⟨rfl, ih (hcat.resolve hs hr) (by simp [Context.derive]) _, fun _ _ => trivial⟩
        obtain ⟨_, hleads, hstay⟩ := leads_resolveFields Moment.composes_follows
          (fun m' _ w _ => .refl m'.journal) (fun m' _ gk pks => Journal.follows_take m'.journal gk pks)
          hread (fun c hc _ look _ hstay => keysStay_assignField hkey hc look hstay) hkey hplan together
          hrows.eq_null hrows.keysStay
        dsimp only
        rw [exec_resolveRows]
        generalize (ofJob (app.collect together ctx plan (rows.map (·.getD s.pkName))) >>= fun collected =>
          collected.foldlM (resolveField app (rowsWithin app together levels) s ctx) rows).exec _ = result
          at hleads hstay
        obtain ⟨outcome, m'⟩ := result
        cases outcome with
        | error e => exact Journal.follows_failed hleads
        | ok rows' =>
            exact Journal.follows_finished hleads fun pk hpk hmem =>
              mem_finished_keys hkey (hs.nodup_names) hplan hforced hrows (hstay rows' rfl) hpk hmem

end Journaling

/-- The journals of reads that share a guard, one after another, in worlds of one registry. No read asks
for an expression under the name of its primary key. Apart from the account they are the reads themselves
(`Journaling.mirrors_rowsWithin`). -/
inductive Journal.Reached (reg : Registry) : Journal → Prop
  | fresh : Reached reg .fresh
  | read {j : Journal} (before : Reached reg j) {app : Application} (same : app.registry = reg)
    (catalog : app.catalog.Declared reg) {s : Schema} (schema : s.Declared reg) {ctx : Context}
    (unforced : s.pkName ∉ ctx.forced.map Prod.fst) (together : Bool) (levels : Nat) (src : Source)
    (w : World) :
    Reached reg ((Journaling.rowsWithin app together levels s src ctx).exec ⟨j, w⟩).2.journal

namespace Journal.Reached

variable {decls : List ModelDecl} {reg : Registry} {j : Journal}

theorem sound (hkeys : reg.KeysFound) (h : j.Reached reg) : j.Sound := by
  induction h with
  | fresh => exact sound_fresh
  | @read j _ app same hcat s hs ctx hforced together levels src w ih =>
      subst same
      exact (Journaling.follows_rowsWithin (m := ⟨j, w⟩) hkeys hcat together hs hforced src).sound ih

/-- A row that a nested field takes was finished by a call that succeeded, or noted by a call that is
running, or noted by a call that failed. -/
theorem rowSource_of_taken (hreg : Registry.build decls = .ok reg)
    (hdots : ∀ m ∈ reg.models, '.' ∉ m.pkName.toList) (h : j.Reached reg) {before after : List JournalEntry}
    {calls : List Nat} {key : GuardKey} {pk : Value} {row : Record} (hpk : pk.isPlain)
    (hlog : j.log = before ++ ⟨calls, .taken key pk row⟩ :: after) :
    FinishedRow before key pk row ∨ RowUnderway before calls key pk row ∨ RowLeftBehind before key pk row :=
  (h.sound (Registry.keysFound_of_build hreg hdots)).taken before calls key pk row after hpk hlog

/-! ## A book whose tags are down -/

open Registry (built modelOf tableOf)

def shelves : List ModelDecl :=
  [{ name := "author", fields := [.autoKey "id"] },
    { name := "book", fields := [.autoKey "id", .of "author" (.foreignKey "author" (some "books"))] }]

/-- An author with one book. -/
def oneBook : World where
  registry := built shelves
  databases := [("default",
    ⟨⟨[("author", tableOf [(1, [])]), ("book", tableOf [(1, [("author", .int 1)])])]⟩, [], []⟩)]
  main := "default"
  clock := default
  tick := 0

def bookFields : List FieldDecl :=
  [{ name := "id" },
    { name := "tags"
      source := .function ⟨.perKey fun _ => .error (.database "tags are down"), none⟩
      single := some false }]

/-- The schema of a book, whose tags cannot be had. -/
def bookSchema : Schema :=
  match Schema.build (built shelves) {} "Book" (modelOf (built shelves) "book") bookFields with
  | .ok s => s
  | .error _ => default

def catalog : Catalog := { schemas := [(1, bookSchema)], next := 2 }

def authorFields : List FieldDecl :=
  [{ name := "id" },
    { name := "quiet", source := .path "books", nested := some (.schema 1), silent := true },
    { name := "books", nested := some (.schema 1) }]

/-- The schema of an author, whose books are read twice, silently first. -/
def authorSchema : Schema :=
  match Schema.build (built shelves) catalog "Author" (modelOf (built shelves) "author") authorFields with
  | .ok s => s
  | .error _ => default

/-- The author read, with the account of it. -/
def authorRead : Outcome (List Record) × Moment :=
  oneBook.readAccount catalog false (oneBook.levels catalog {}) authorSchema (.key (.int 1)) {}

/-- The book as it was noted. -/
def untagged : Record := [("id", .int 1), ("tags", .list [])]

theorem reached_authorRead : authorRead.2.journal.Reached (built shelves) := by
  have hbook : Schema.build (built shelves) {} "Book" (modelOf (built shelves) "book") bookFields =
      .ok bookSchema := rfl
  have hauthor : Schema.build (built shelves) catalog "Author" (modelOf (built shelves) "author")
      authorFields = .ok authorSchema := rfl
  have hcatalog : catalog.Declared (built shelves) := by
    intro e he
    obtain rfl := List.mem_singleton.mp he
    exact .built (by decide) hbook
  have hschema : authorSchema.Declared (built shelves) := .built (by decide) hauthor
  have hunforced : authorSchema.pkName ∉ ({} : Context).forced.map Prod.fst := List.not_mem_nil
  have hsame : (oneBook.application catalog).registry = built shelves := rfl
  exact .read .fresh hsame hcatalog hschema hunforced false (oneBook.levels catalog {}) (.key (.int 1)) oneBook

/-- The read takes the book that a failed call has noted. -/
theorem rowSource_of_untagged :
    (Registry.build shelves = .ok (built shelves) ∧
      (∀ m ∈ (built shelves).models, '.' ∉ m.pkName.toList) ∧
      authorRead.2.journal.Reached (built shelves) ∧ (Value.int 1).isPlain ∧
      authorRead.2.journal.log = authorRead.2.journal.log.take 5 ++
        ⟨[0], .taken ⟨1, ""⟩ (.int 1) untagged⟩ :: authorRead.2.journal.log.drop 6) ∧
    (FinishedRow (authorRead.2.journal.log.take 5) ⟨1, ""⟩ (.int 1) untagged ∨
      RowUnderway (authorRead.2.journal.log.take 5) [0] ⟨1, ""⟩ (.int 1) untagged ∨
      RowLeftBehind (authorRead.2.journal.log.take 5) ⟨1, ""⟩ (.int 1) untagged) := by
  have hbuild : Registry.build shelves = .ok (built shelves) := rfl
  have hdots : ∀ m ∈ (built shelves).models, '.' ∉ m.pkName.toList := by decide
  have hlog : authorRead.2.journal.log = authorRead.2.journal.log.take 5 ++
      ⟨[0], .taken ⟨1, ""⟩ (.int 1) untagged⟩ :: authorRead.2.journal.log.drop 6 := by decide +kernel
  exact ⟨⟨hbuild, hdots, reached_authorRead, rfl, hlog⟩,
    rowSource_of_taken hbuild hdots reached_authorRead rfl hlog⟩

/-- The failure of the silent field makes the other one succeed with a book whose tags are a placeholder,
which no call has finished and none is at. -/
theorem silenced_failure_is_taken :
    authorRead.1.toOption = some [[("id", .int 1), ("quiet", .list []), ("books", .list [.map untagged])]] ∧
    authorRead.2.journal.Reached (built shelves) ∧
    authorRead.2.journal.log = authorRead.2.journal.log.take 5 ++
      ⟨[0], .taken ⟨1, ""⟩ (.int 1) untagged⟩ :: authorRead.2.journal.log.drop 6 ∧
    ¬FinishedRow (authorRead.2.journal.log.take 5) ⟨1, ""⟩ (.int 1) untagged ∧
    ¬RowUnderway (authorRead.2.journal.log.take 5) [0] ⟨1, ""⟩ (.int 1) untagged := by
  have hfinished : ∀ e ∈ authorRead.2.journal.log.take 5, e.event ≠ .finished ⟨1, ""⟩ (.int 1) untagged := by
    decide +kernel
  have hnoted : ∀ e ∈ authorRead.2.journal.log.take 5,
      e.event = .noted ⟨1, ""⟩ (.int 1) untagged → ¬e.calls <:+ [0] := by
    decide +kernel
  refine ⟨by decide +kernel, reached_authorRead, by decide +kernel, ?_, ?_⟩
  · rintro ⟨call, _, hmem, _⟩
    exact hfinished _ hmem rfl
  · rintro ⟨call, _, hmem, hrunning⟩
    exact hnoted _ hmem rfl hrunning

end Journal.Reached

end RecordMapper
