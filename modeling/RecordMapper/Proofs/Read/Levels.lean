import Mathlib.Data.List.ProdSigma
import RecordMapper.Proofs.Read.Once
import RecordMapper.Proofs.Read.Unfiltered
import RecordMapper.Proofs.Schema.Declared
import RecordMapper.Context
import RecordMapper.Proofs.Entries

/-!
# Levels — how deep a read goes

Every nested call that goes on with rows notes a row that the guard did
not know, and there are only so many rows and guard keys. So a read comes
to its end before it runs out of levels, whatever the rows and the
schemas refer to (`reads_once`), and no call fetches a row that another
one has fetched under the same guard key.
-/

/-!
## Parts — which scopes are left below a context

A context that is handed down keeps a part of each of its scopes, or
nothing of it. A scope has only as many parts as it has names, so rows of
some schemas are recorded under finitely many guard keys below one
context (`length_guardKeys`).
-/

namespace RecordMapper

namespace Scope

mutual

/-- The scopes below the names of a tree. -/
def descendants : Scope → List Scope
  | .mk cs => childrenDescendants cs

/-- The scopes of a level and those below them. -/
def childrenDescendants : List (String × Scope) → List Scope
  | [] => []
  | (_, below) :: rest => below :: (descendants below ++ childrenDescendants rest)

end

mutual

theorem length_descendants : (s : Scope) → s.descendants.length = s.size
  | .mk cs => by
      rw [descendants, size]
      exact length_childrenDescendants cs

theorem length_childrenDescendants :
    (cs : List (String × Scope)) → (childrenDescendants cs).length = childrenSize cs
  | [] => rfl
  | (_, below) :: rest => by
      rw [childrenDescendants, childrenSize, List.length_cons, List.length_append,
        length_descendants below, length_childrenDescendants rest]
      omega

end

theorem mem_childrenDescendants {cs : List (String × Scope)} {t : Scope} :
    t ∈ childrenDescendants cs ↔ ∃ e ∈ cs, t = e.2 ∨ t ∈ e.2.descendants := by
  induction cs with
  | nil => simp [childrenDescendants]
  | cons e rest ih => simp [childrenDescendants, ih, or_assoc]

theorem mem_descendants_of_child? {s below : Scope} {name : String} (h : s.child? name = some below) :
    below ∈ s.descendants := by
  obtain ⟨cs⟩ := s
  rw [descendants, mem_childrenDescendants]
  exact ⟨_, mem_of_lookup h, .inl rfl⟩

mutual

/-- What is below a descendant is a descendant. -/
theorem descendants_trans {t u : Scope} (hu : u ∈ t.descendants) :
    (s : Scope) → t ∈ s.descendants → u ∈ s.descendants
  | .mk cs => by
      rw [descendants]
      exact childrenDescendants_trans hu cs

theorem childrenDescendants_trans {t u : Scope} (hu : u ∈ t.descendants) :
    (cs : List (String × Scope)) → t ∈ childrenDescendants cs → u ∈ childrenDescendants cs
  | [] => fun ht => absurd ht List.not_mem_nil
  | (_, below) :: rest => by
      rw [childrenDescendants, List.mem_cons, List.mem_append, List.mem_cons, List.mem_append]
      rintro (rfl | ht | ht)
      · exact .inr (.inl hu)
      · exact .inr (.inl (descendants_trans hu below ht))
      · exact .inr (.inr (childrenDescendants_trans hu rest ht))

end

/-- What can be left of a scope that is handed down: nothing, or what is below one of its names. -/
def parts (o : Option Scope) : List (Option Scope) := none :: (o.elim [] descendants).map some

theorem length_parts (o : Option Scope) : (parts o).length = (o.map size).getD 0 + 1 := by
  rw [parts, List.length_cons, List.length_map]
  cases o with
  | none => rfl
  | some s => exact congrArg (· + 1) (length_descendants s)

end Scope

namespace Context

open Scope (parts)

theorem given?_mem_parts {o o' : Option Scope} (h : o' ∈ parts o) : given? o' ∈ parts o := by
  rcases Option.eq_none_or_eq_some (given? o') with hnone | ⟨s, hs⟩
  · rw [hnone]
    exact List.mem_cons_self
  · rw [hs, ← (Option.filter_eq_some_iff.mp hs).1]
    exact h

theorem child_mem_parts (o : Option Scope) (name : String) : given? (o.bind (·.child? name)) ∈ parts o := by
  refine given?_mem_parts ?_
  rcases Option.eq_none_or_eq_some (o.bind (·.child? name)) with hnone | ⟨below, hbelow⟩
  · rw [hnone]
    exact List.mem_cons_self
  · obtain ⟨s, rfl, hchild⟩ := Option.bind_eq_some_iff.mp hbelow
    rw [hbelow]
    exact List.mem_cons_of_mem _ (List.mem_map_of_mem (Scope.mem_descendants_of_child? hchild))

theorem child_mem_parts_of_mem {o o' : Option Scope} (h : o' ∈ parts o) (name : String) :
    given? (o'.bind (·.child? name)) ∈ parts o := by
  rcases List.mem_cons.mp (child_mem_parts o' name) with hnone | hsome
  · rw [hnone]
    exact List.mem_cons_self
  · rcases List.mem_cons.mp h with rfl | h
    · cases hsome
    · obtain ⟨t, ht, rfl⟩ := List.mem_map.mp h
      obtain ⟨u, hu, hchild⟩ := List.mem_map.mp hsome
      rw [← hchild]
      refine List.mem_cons_of_mem _ (List.mem_map_of_mem ?_)
      cases o with
      | none => cases ht
      | some s => exact Scope.descendants_trans hu s ht

/-- A context that was handed down from another one. -/
structure Below (top ctx : Context) : Prop where
  forced : ctx.forced = []
  includes : ctx.includes ∈ parts top.includes
  excludes : ctx.excludes ∈ parts top.excludes

theorem below_derive (top : Context) (name : String) : top.Below (top.derive name) :=
  ⟨rfl, child_mem_parts top.includes name, child_mem_parts top.excludes name⟩

theorem Below.derive {top ctx : Context} (h : top.Below ctx) (name : String) :
    top.Below (ctx.derive name) :=
  ⟨rfl, child_mem_parts_of_mem h.includes name, child_mem_parts_of_mem h.excludes name⟩

/-- The guard keys under which rows of some schemas can be recorded below a context. -/
def guardKeys (top : Context) (schemas : List Nat) : List GuardKey :=
  (schemas ×ˢ parts top.includes ×ˢ parts top.excludes).map fun e =>
    guardKey { includes := e.2.1, excludes := e.2.2 } e.1

theorem length_guardKeys (top : Context) (schemas : List Nat) : (top.guardKeys schemas).length =
    schemas.length * ((parts top.includes).length * (parts top.excludes).length) := by
  rw [guardKeys, List.length_map, List.length_product, List.length_product]

theorem Below.mem_guardKeys {top ctx : Context} (h : top.Below ctx) {schemas : List Nat} {schema : Nat}
    (hs : schema ∈ schemas) : ctx.guardKey schema ∈ top.guardKeys schemas := by
  refine List.mem_map.mpr ⟨(schema, ctx.includes, ctx.excludes), ?_, ?_⟩
  · exact List.pair_mem_product.mpr ⟨hs, List.pair_mem_product.mpr ⟨h.includes, h.excludes⟩⟩
  · rw [guardKey, guardKey, selectionText, selectionText, h.forced]

end Context

end RecordMapper

namespace RecordMapper

/-! ## Rows that are not known yet -/

namespace Guard

variable {g g' : Guard} {pairs : List (GuardKey × Value)}

/-- How many of some rows, named by guard keys and primary keys, a guard does not know. -/
def unknown (g : Guard) (pairs : List (GuardKey × Value)) : Nat :=
  (pairs.filter fun e => !g.contains e.1 e.2).length

theorem filter_unknown (h : ∀ e ∈ pairs, g.contains e.1 e.2 = true → g'.contains e.1 e.2 = true) :
    pairs.filter (fun e => !g'.contains e.1 e.2) =
      (pairs.filter fun e => !g.contains e.1 e.2).filter fun e => !g'.contains e.1 e.2 := by
  rw [List.filter_filter]
  refine List.filter_congr fun e he => ?_
  cases hg : g.contains e.1 e.2 with
  | false => simp
  | true => simp [h e he hg]

/-- Once another row is known, fewer rows are not. -/
theorem unknown_lt (h : ∀ e ∈ pairs, g.contains e.1 e.2 = true → g'.contains e.1 e.2 = true)
    {e : GuardKey × Value} (he : e ∈ pairs) (hnew : g.contains e.1 e.2 = false)
    (hknown : g'.contains e.1 e.2 = true) : g'.unknown pairs < g.unknown pairs := by
  rw [unknown, filter_unknown h]
  refine List.length_filter_lt_length_iff_exists.mpr ⟨e, List.mem_filter.mpr ⟨he, ?_⟩, ?_⟩
  · rw [hnew]
    rfl
  · rw [hknown]
    decide

end Guard

/-! ## Nested calls -/

/-- The schemas that can be met below a schema: itself and those of the catalog. -/
def Catalog.below (cat : Catalog) (s : Schema) : List Schema := s :: cat.schemas.map Prod.snd

/-- The rows that can be recorded below a context, named by guard keys and primary keys. -/
def World.pairs (w : World) (cat : Catalog) (s : Schema) (top : Context) : List (GuardKey × Value) :=
  top.guardKeys ((cat.below s).map (·.id)) ×ˢ w.storedKeys

theorem World.length_pairs (w : World) (cat : Catalog) (s : Schema) (top : Context) :
    (w.pairs cat s top).length + 2 ≤ w.levels cat top := by
  rw [pairs, List.length_product, Context.length_guardKeys, List.length_map, Catalog.below,
    List.length_cons, List.length_map, Scope.length_parts, Scope.length_parts, length_storedKeys, levels]
  rw [← Nat.mul_assoc]
  exact Nat.add_le_add_right (Nat.mul_le_mul_left _ (Nat.le_succ _)) 2

/-- What nested reads below a read can be of: schemas that can be made, in contexts handed down. -/
structure World.Nests (w : World) (cat : Catalog) (top : Schema) (ctx : Context) (s : Schema)
    (below : Context) : Prop where
  declared : s.Declared w.registry
  mem : s ∈ cat.below top
  below : ctx.Below below

namespace Journaling

variable {w : World} {cat : Catalog} {top s : Schema} {ctx below : Context} {together : Bool} {m : Moment}

theorem nests_of_nested? (hcat : cat.Declared w.registry) (h : s.Declared w.registry)
    (hmem : s ∈ cat.below top) (hbelow : ∀ name, ctx.Below (below.derive name)) {f : SchemaField}
    {nested : Schema} (hnested : (w.application cat).nested? s f = .ok (some nested)) :
    w.Nests cat top ctx nested (below.derive f.name) := by
  obtain ⟨r, _, hr⟩ := Application.exists_resolve hnested
  refine ⟨hcat.resolve h hr, ?_, hbelow f.name⟩
  rcases Catalog.mem_of_resolve hr with rfl | hnew
  · exact hmem
  · exact List.mem_cons_of_mem _ hnew

variable (hkeys : w.registry.KeysFound) (hcat : cat.Declared w.registry)
include hkeys hcat

/-- A call lets the journal grow well if the rows that it goes on with are not known yet and its nested
reads let the journal grow well, and it is not changed by more levels if they are not. -/
theorem leads_rows {levels levels' : Nat} (hdeclared : s.Declared w.registry) (hmem : s ∈ cat.below top)
    (hbelow : ∀ name, ctx.Below (below.derive name)) {src : Source} (hworld : w.Unchanged m.world)
    (h : ∀ key plan rows, s.KeyField (w.application cat).registry key →
      (m.world.runJob ((w.application cat).prepare s src below)).1 = .ok (some (plan, rows)) →
      (∀ row ∈ rows, (row.getD s.pkName).isPlain →
        m.journal.guard.contains (below.guardKey s.id) (row.getD s.pkName) = false) ∧
      ∀ m' (f : SchemaField) nested, w.Unchanged m'.world →
        (m.journal.enter.note (below.guardKey s.id) (keyedBy s.pkName rows plan.finish)).Grows m'.journal →
        w.Nests cat top ctx nested (below.derive f.name) → ∀ missing,
        (∀ pk ∈ missing, m'.journal.guard.contains ((below.derive f.name).guardKey nested.id) pk = false) →
          LeadsTo Moment.Grows (fun _ => True) m'
            (rowsWithin (w.application cat) together levels nested (.keys missing) (below.derive f.name))
            (rowsWithin (w.application cat) together levels' nested (.keys missing) (below.derive f.name))) :
    LeadsTo Moment.Grows (fun _ => True) m
      (rowsWithin (w.application cat) together (levels + 1) s src below)
      (rowsWithin (w.application cat) together (levels' + 1) s src below) := by
  obtain ⟨key, hkey⟩ : ∃ key, s.KeyField (w.application cat).registry key :=
    hdeclared.exists_keyField hkeys
  have hprepare := Application.yields_prepare (w.application cat) s src below
  rw [rowsWithin, rowsWithin]
  refine leads_call (.ofJob_bind Moment.composes_grows ⟨(hprepare _).1, .refl _⟩ fun prepared hp => ?_)
  cases prepared with
  | none => exact .pure Moment.composes_grows trivial
  | some p =>
      obtain ⟨plan, rows⟩ := p
      obtain ⟨hnew, hread⟩ := h key plan rows hkey hp
      refine leads_resolveRows (m := ⟨m.journal.enter, _⟩) hkey (hdeclared.nodup_names)
        (Application.made_of_prepare hkey hp).1 together (Application.keys_of_prepare hkey hp) hnew
        fun m' hm' f nested hnested => ?_
      exact hread m' f nested (hworld.trans ((hprepare _).1.trans hm'.1)) hm'.2
        (nests_of_nested? hcat hdeclared hmem hbelow hnested)

variable (hplain : w.PlainKeys)
include hplain

/-- With more levels than there are rows that the guard does not know, a nested read of rows that it
does not know lets the journal grow well, and more levels do not change it. -/
theorem leads_rowsWithin {levels levels' : Nat} (hle : levels ≤ levels')
    (hs : w.Nests cat top ctx s below) {missing : List Value}
    (hnew : ∀ pk ∈ missing, m.journal.guard.contains (below.guardKey s.id) pk = false)
    (hworld : w.Unchanged m.world) (hroom : m.journal.guard.unknown (w.pairs cat top ctx) < levels) :
    LeadsTo Moment.Grows (fun _ => True) m
      (rowsWithin (w.application cat) together levels s (.keys missing) below)
      (rowsWithin (w.application cat) together levels' s (.keys missing) below) := by
  induction levels generalizing levels' s below missing m with
  | zero => cases hroom
  | succ levels ih =>
      obtain ⟨levels', rfl⟩ : ∃ n, levels' = n + 1 := ⟨levels' - 1, by omega⟩
      refine leads_rows hkeys hcat hs.declared hs.mem (fun _ => hs.below.derive _) hworld
        fun key plan rows hkey h => ?_
      obtain ⟨_, hne⟩ := Application.made_of_prepare hkey h
      obtain ⟨_, hrows⟩ := Application.nested_of_prepare hkey hworld rfl hplain hs.below.forced h
      refine ⟨fun row hrow _ => hnew _ (hrows row hrow).1, fun m' f nested hworld' hgrows hnests _ hmissing => ?_⟩
      -- The first row was not known and is known now, so the nested read has room.
      obtain ⟨row, hrow⟩ := List.exists_mem_of_ne_nil rows hne
      obtain ⟨hasked, hstored⟩ := hrows row hrow
      have hpk := hplain _ hstored
      have hknown : m'.journal.guard.contains (below.guardKey s.id) (row.getD s.pkName) = true := by
        refine hgrows.known _ _ hpk (Journal.contains_note_of_mem hpk ?_)
        rw [map_keyedBy]
        exact List.mem_map_of_mem hrow
      have hpair : (below.guardKey s.id, row.getD s.pkName) ∈ w.pairs cat top ctx :=
        List.mem_product.mpr ⟨hs.below.mem_guardKeys (List.mem_map_of_mem hs.mem), hstored⟩
      have hless : m'.journal.guard.unknown (w.pairs cat top ctx) <
          m.journal.guard.unknown (w.pairs cat top ctx) := by
        refine Guard.unknown_lt (fun e he h => ?_) hpair (hnew _ hasked) hknown
        have hplain' := hplain _ (List.mem_product.mp he).2
        exact hgrows.known _ _ hplain' ((Journal.contains_note hplain').mpr (.inl h))
      exact ih (by omega) hnests hmissing hworld' (by omega)

/-- A read with a fresh journal lets it grow well, and more levels do not change it. -/
theorem leads_fresh {levels : Nat} (hle : w.levels cat ctx ≤ levels) (hs : s.Declared w.registry)
    (src : Source) :
    LeadsTo Moment.Grows (fun _ => True) ⟨.fresh, w⟩
      (rowsWithin (w.application cat) together (w.levels cat ctx) s src ctx)
      (rowsWithin (w.application cat) together levels s src ctx) := by
  have hpairs := w.length_pairs cat s ctx
  obtain ⟨n, hn⟩ : ∃ n, w.levels cat ctx = n + 1 := ⟨w.levels cat ctx - 1, by omega⟩
  obtain ⟨n', rfl⟩ : ∃ n', levels = n' + 1 := ⟨levels - 1, by omega⟩
  rw [hn]
  refine leads_rows hkeys hcat hs List.mem_cons_self ctx.below_derive (.refl w) fun key plan rows hkey h => ?_
  refine ⟨fun _ _ _ => rfl, fun m' f nested hworld' hgrows hnests _ hmissing => ?_⟩
  refine leads_rowsWithin hkeys hcat hplain (by omega) hnests hmissing hworld' ?_
  have hlength : m'.journal.guard.unknown (w.pairs cat s ctx) ≤ (w.pairs cat s ctx).length :=
    List.length_filter_le ..
  omega

end Journaling

/-! ## Reads of a world -/

namespace World

variable {w : World} {cat : Catalog} {s : Schema}

/-- A read that keeps a journal, from a fresh one on. -/
def readAccount (w : World) (cat : Catalog) (together : Bool) (levels : Nat) (s : Schema) (src : Source)
    (ctx : Context) : Outcome (List Record) × Moment :=
  (Journaling.rowsWithin (w.application cat) together levels s src ctx).exec ⟨.fresh, w⟩

open Registry (built modelOf tableOf)

/-- People with a friend each. -/
def people : List ModelDecl :=
  [{ name := "person", fields := [.autoKey "id", .of "friend" (.foreignKey "person" (some "fans"))] }]

/-- Two people who are each other's friends. -/
def twoFriends : World where
  registry := built people
  databases := [("default",
    ⟨⟨[("person", tableOf [(1, [("friend", .int 2)]), (2, [("friend", .int 1)])])]⟩, [], []⟩)]
  main := "default"
  clock := default
  tick := 0

def personFields : List FieldDecl := [{ name := "id" }, { name := "friend", nested := some .self }]

/-- The schema of a person, whose friend is read with the same schema. -/
def personSchema : Schema :=
  match Schema.build (built people) {} "Person" (modelOf (built people) "person") personFields with
  | .ok s => s
  | .error _ => default

end World

end RecordMapper
