import RecordMapper.Proofs.Read.Unfiltered
import RecordMapper.Proofs.Save.Written
import RecordMapper.Proofs.Store.Aggregates
import RecordMapper.Proofs.Store.Links

/-!
# Linking — what a save adds to a through model

A many-to-many relation that is given by keys has one row of the through
model inserted for each key that is missing. Keys are given once, so no
pair gets two rows. What is missing is told by the rows that exist, which
are looked at where a row was found and overwritten, and only there: a
new row is taken to have no links, although one that is put below a
parent's may have inherited them.
-/

namespace RecordMapper

open Store World

/-! ## Links of one pair -/

namespace Link

variable {database : String} {reg : Registry} {x : Link} {pk : Value} {keys : List Value}

/-- Inserts the rows that link an owner to some keys. -/
def insertAll (database : String) (x : Link) (pk : Value) (keys : List Value) : Job PUnit :=
  (keys.map fun k => Record.ofList [(x.own, pk), (x.other, k)]).forM fun row => do
    let _ ← Job.insert database x.through row

/-- The keys that no row found for an owner links already. -/
def missing (x : Link) (keys : List Value) (existing : List Record) : List Value :=
  keys.filter fun k => !(existing.filterMap fun row => row.get? x.other).contains k

theorem not_mem_missing {existing : List Record} {row : Record} (hrow : row ∈ existing)
    (hkey : row.get? x.other = some x.key) : x.key ∉ x.missing keys existing := by
  intro hmem
  have hpresent : x.key ∈ existing.filterMap fun row => row.get? x.other := List.mem_filterMap.mpr ⟨row, hrow, hkey⟩
  have hnew := (List.mem_filter.mp hmem).2
  rw [List.contains_iff_mem.mpr hpresent] at hnew
  cases hnew

namespace Declared

variable (hx : x.Declared reg)
include hx

/-- Links of other pairs are not links of this one. -/
theorem insertAll_addsNone (h : pk = x.owner → x.key ∉ keys) :
    Job.Keeps (Changes database reg (x.AddsNone reg)) (x.insertAll database pk keys) := by
  refine .forM (Job.composes_changes (AddsNone.refl x) AddsNone.trans) fun row hrow => ?_
  refine (Job.ask_changes (AddsNone.refl x) ?_).bind_pure _
  obtain ⟨k, hk, rfl⟩ := List.mem_map.mp hrow
  refine Call.changing_insert fun hinsert => hx.insert_addsNone (fun hpk hkey => h hpk ?_) hinsert
  exact hkey ▸ hk

/-- Where no key is given twice no pair is linked twice. -/
theorem insertAll_addsOne (hnd : keys.Nodup) :
    Job.Keeps (Changes database reg (x.AddsOne reg)) (x.insertAll database pk keys) := by
  have hrefl : ∀ st, x.AddsOne reg st st := fun st => (AddsNone.refl x st).addsOne
  induction keys with
  | nil => exact fun w => .refl hrefl w
  | cons k rest ih =>
      rw [List.nodup_cons] at hnd
      by_cases hpair : pk = x.owner ∧ k = x.key
      · -- This row links the pair, and no later one does.
        have hone : Job.Keeps (Changes database reg (x.AddsOne reg))
            (Job.insert database x.through (Record.ofList [(x.own, pk), (x.other, k)])) :=
          Job.ask_changes hrefl (Call.changing_insert hx.insert_addsOne)
        exact Job.bind_changes (hone.bind_pure _) (fun _ => hx.insertAll_addsNone fun _ => hpair.2 ▸ hnd.1) id
          AddsOne.before
      · have hnone : Job.Keeps (Changes database reg (x.AddsNone reg))
            (Job.insert database x.through (Record.ofList [(x.own, pk), (x.other, k)])) :=
          Job.ask_changes (AddsNone.refl x)
            (Call.changing_insert (hx.insert_addsNone fun hpk hkey => hpair ⟨hpk, hkey⟩))
        exact Job.bind_changes (hnone.bind_pure _) (fun _ => ih hnd.2) AddsNone.addsOne AddsOne.after

/-- Assigning a relation links what is missing, whatever rows were looked at. -/
theorem assign_changes {S : Store → Store → Prop} (hnone : ∀ {st st'}, x.AddsNone reg st st' → S st st')
    (hafter : ∀ {st st' st''}, x.AddsNone reg st st' → S st' st'' → S st st'')
    (hlinks : ∀ existing, Job.Keeps (Changes database reg S) (x.insertAll database pk (x.missing keys existing)))
    (created : Bool) :
    Job.Keeps (Changes database reg S)
      ((RelationWrite.manyToMany x.through x.own x.other).assign database pk keys created) := by
  have hrest : Job.Keeps (Changes database reg S) (do
      let existing ← if created then pure [] else
        Job.fetch database (RelationWrite.throughRows x.through x.own pk) [.ofPath x.other]
      (RelationWrite.missingLinks x.own x.other pk keys existing).forM fun row => do
        let _ ← Job.insert database x.through row) := by
    refine .ite (Job.bind_changes (fun w => .refl (AddsNone.refl x) w) hlinks hnone hafter) ?_
    exact Job.bind_changes (Job.ask_changes (AddsNone.refl x) (Call.changing_fetch _ _)) hlinks hnone hafter
  refine .ite (Job.bind_changes (Job.ask_changes (AddsNone.refl x) ?_) (fun _ => hrest) hnone hafter) hrest
  exact Call.changing_delete fun h => hx.delete_addsNone h

theorem assign_addsOne (hnd : keys.Nodup) (created : Bool) :
    Job.Keeps (Changes database reg (x.AddsOne reg))
      ((RelationWrite.manyToMany x.through x.own x.other).assign database pk keys created) :=
  hx.assign_changes AddsNone.addsOne AddsOne.after (fun _ => hx.insertAll_addsOne (hnd.filter _)) created

theorem assign_addsNone (h : pk = x.owner → x.key ∉ keys) (created : Bool) :
    Job.Keeps (Changes database reg (x.AddsNone reg))
      ((RelationWrite.manyToMany x.through x.own x.other).assign database pk keys created) :=
  hx.assign_changes id AddsNone.trans
    (fun _ => hx.insertAll_addsNone fun hpk hkey => h hpk (List.mem_of_mem_filter hkey)) created

/-- Of the rows that are missing beside those found for the owner none links a pair that is linked. -/
theorem insertMissing_addsNone (howner : x.owner.isPlain) (hnd : keys.Nodup) :
    Job.Keeps (Changes database reg fun st st' => x.Linked reg st → x.AddsNone reg st st') (do
      let existing ← Job.fetch database (RelationWrite.throughRows x.through x.own x.owner) [.ofPath x.other]
      x.insertAll database x.owner (x.missing keys existing)) := by
  have hfetch : Job.Keeps (Changes database reg (x.AddsNone reg))
      (Job.fetch database (RelationWrite.throughRows x.through x.own x.owner) [.ofPath x.other]) :=
    Job.ask_changes (AddsNone.refl x) (Call.changing_fetch _ _)
  have hlinks : ∀ existing, Job.Keeps (Changes database reg (x.AddsOne reg))
      (x.insertAll database x.owner (x.missing keys existing)) :=
    fun existing => hx.insertAll_addsOne (hnd.filter _)
  have hconfined := fun w => (Job.bind_changes hfetch hlinks AddsNone.addsOne AddsOne.after w).toConfined
  have hfound : ∀ st, Job.Ends database reg (fun _ => True) st
      (Job.fetch database (RelationWrite.throughRows x.through x.own x.owner) [.ofPath x.other]) fun rows _ =>
        st.fetch reg (RelationWrite.throughRows x.through x.own x.owner) [.ofPath x.other] = .ok rows :=
    fun _ => .fetch rfl fun _ hrows => hrows
  refine Job.Ends.bind_changes hfound hconfined hfetch (fun st rows _ ⟨_, _, hy⟩ hrows => ?_) id AddsNone.trans
  obtain ⟨row, hrow, hkey⟩ := hx.mem_fetch howner hy hrows
  exact hx.insertAll_addsNone fun _ => not_mem_missing hrow hkey

/-- Where the rows of the owner are looked at, a pair that is linked is not linked again. -/
theorem assign_of_linked (hcascades : ∀ e ∈ referringColumns reg (family reg x.through), Spares reg e.1 x.through)
    (howner : x.owner.isPlain) (hkey : x.key.isPlain) (hnd : keys.Nodup) :
    Job.Keeps (Changes database reg fun st st' => x.Linked reg st → x.AddsNone reg st st')
      ((RelationWrite.manyToMany x.through x.own x.other).assign database pk keys false) := by
  by_cases hpair : pk = x.owner ∧ x.key ∈ keys
  · obtain ⟨rfl, hlisted⟩ := hpair
    have hdelete : Job.Keeps
        (Changes database reg fun st st' => x.AddsNone reg st st' ∧ (x.Linked reg st → x.Linked reg st'))
        (Job.delete database
          ((RelationWrite.throughRows x.through x.own x.owner).exclude (.test x.other (.oneOf keys)))) :=
      Job.ask_changes (fun st => ⟨.refl x st, id⟩) (Call.changing_delete (hx.delete_linked hcascades hkey hlisted))
    exact Job.bind_changes hdelete (fun _ => hx.insertMissing_addsNone howner hnd) (fun h _ => h.1)
      fun h hrest hlinked => h.1.trans (hrest (h.2 hlinked))
  · intro w
    exact (hx.assign_addsNone (fun hpk hlisted => hpair ⟨hpk, hlisted⟩) false w).imp fun h _ => h

end Declared

end Link

/-! ## Saves -/

namespace Link.Declared

variable {reg : Registry} {x : Link} (hx : x.Declared reg)
include hx

theorem looksAt_addsOne : LooksAt x.through (x.AddsOne reg) where
  refl st := (AddsNone.refl x st).addsOne
  after h := .after (hx.addsNone_of_beside h)
  before h h' := h.before (hx.addsNone_of_beside h')

theorem looksAt_of_linked : LooksAt x.through fun st st' => x.Linked reg st → x.AddsNone reg st st' where
  refl st _ := .refl x st
  after h h' hlinked :=
    (hx.addsNone_of_beside h).trans (h' (hlinked.imp fun y hy => ⟨hy.1, hx.addsNone_of_beside h.symm y hy.2⟩))
  before h h' hlinked := (h hlinked).trans (hx.addsNone_of_beside h')

end Link.Declared

namespace Save

variable {app : Application} {t : WriteTarget} {s : Schema} {o : SaveOptions} {data : Record} {name : String}
  {v : Value} {f : SchemaField} {x : Link} {S : Store → Store → Prop}

/-- Nothing that a save of some data does reaches the table of a through model, but for the relation that one
entry gives: it writes no other rows of the model and deletes none that lead to them. -/
structure LinksAlone (app : Application) (s : Schema) (data : Record) (name : String) (through : Model) :
    Prop where
  touches : ∀ m, Touches app s (data.filter (·.1 != name)) m →
    through.name ∉ (app.registry.lineage m).map Model.name
  prunes : ∀ m, Prunes app s (data.filter (·.1 != name)) m → Spares app.registry m through
  cascades : ∀ e ∈ referringColumns app.registry (family app.registry through), Spares app.registry e.1 through

theorem LinksAlone.allowed {through : Model} (h : LinksAlone app s data name through) :
    Allowed (Call.Changing app.registry (Beside through)) app s (data.filter (·.1 != name)) where
  looks := ⟨Call.changing_fetch, Call.changing_count⟩
  writes m hm := {
    insert := fun _ => Call.changing_insert (beside_insert (h.touches m hm))
    insertChild := fun _ => Call.changing_insertChild (beside_insertChild (h.touches m hm))
    update := fun _ _ hqs => Call.changing_update (beside_update (h.touches m hm) hqs) }
  deletes _ hqs := Call.changing_delete (beside_delete (h.prunes _ hqs))

/-- Writing an entry leaves a table that the entry's data does not reach. -/
theorem entry_beside {through : Model} {rest : Record}
    (hA : Allowed (Call.Changing app.registry (Beside through)) app s rest) (levels : Nat) (pk : Value)
    (created : Bool) {g : SchemaField} {u : Value} {other : String} (hentry : (other, u) ∈ rest)
    (hother : s.field? other = some g) :
    Job.Keeps (Changes t.database app.registry (Beside through)) (relation t o g
      (match g.relationWrite with
        | some w => w.assign t.database pk (g.relationKeys u) created
        | none => return ())) ∧
    (u.holdsObjects → Job.Keeps (Changes t.database app.registry (Beside through))
      (relation t o g (objects app t (rowWithin app t levels) s o pk created g u))) := by
  have hmade : EntryMade _ app t levels s o g u := entryMade_of_allowed (rowWithin_made levels) hA hentry hother
  exact entry_changes .refl .trans hmade pk created

section Whole

variable (hfield : s.field? name = some f) (hwrite : f.relationWrite = some (.manyToMany x.through x.own x.other))
  (hkeys : f.nested = none ∨ v.holdsObjects = false) (hnames : (data.map Prod.fst).Nodup) (hv : (name, v) ∈ data)
  (halone : LinksAlone app s data name x.through) (hS : LooksAt x.through S)
include hfield hnames hv

/-- One entry of some data gives keys for its own relation, and all other entries stand beside it. -/
theorem keys_split_of_mem (op : Operation) :
    ∃ front mid back, (SaveParts.split s op data).keys = front ++ (mid ++ back) ∧ (mid = [] ∨ mid = [(f, v)]) ∧
      ∀ e, e ∈ front ∨ e ∈ back → GivenBeside s data name e := by
  obtain ⟨front, back, hsplit, _, hothers, _⟩ := exists_split_around s op hnames hv
  exact ⟨front.keys, _, back.keys, hsplit, keys_split_singleton op hfield, hothers⟩

include hS

/-- Of the jobs for the keys that some data gives, one changes the table of a through model and all others
leave it. -/
theorem forM_keys_changes {op : Operation} {k : SchemaField × Value → Job Unit}
    (hbeside : ∀ e other, (other, e.2) ∈ data.filter (·.1 != name) → s.field? other = some e.1 →
      Job.Keeps (Changes t.database app.registry (Beside x.through)) (k e))
    (hthis : Job.Keeps (Changes t.database app.registry S) (k (f, v))) :
    Job.Keeps (Changes t.database app.registry S) (List.forM (SaveParts.split s op data).keys k) := by
  obtain ⟨front, mid, back, hsplit, hmid, hothers⟩ := keys_split_of_mem hfield hnames hv op
  have hrest : ∀ rest, (∀ e ∈ rest, e ∈ front ∨ e ∈ back) →
      Job.Keeps (Changes t.database app.registry (Beside x.through)) (List.forM rest k) := by
    refine fun rest hrest => .forM (Job.composes_changes .refl .trans) fun e he => ?_
    obtain ⟨other, hentry, hother⟩ := hothers e (hrest e he)
    exact hbeside e other hentry hother
  have hone : Job.Keeps (Changes t.database app.registry S) (List.forM mid k) := by
    rcases hmid with rfl | rfl
    · exact fun w => .refl hS.refl w
    · exact hthis.bind_pure _
  rw [hsplit]
  simp only [List.forM_eq_forM, List.forM_append] at hrest hone ⊢
  exact Job.bind_changes (hrest front fun e he => .inl he)
    (fun _ => Job.bind_changes hone (fun _ => hrest back fun e he => .inr he) id hS.before) hS.beside hS.after

include hwrite hkeys halone

/-- The relations of a row change the table of a through model as the entry does that is given for it. -/
theorem relations_changes (levels : Nat) {row : WrittenRow} {op : Operation}
    (hparts : row.parts = SaveParts.split s op data)
    (hassign : Job.Keeps (Changes t.database app.registry S)
      ((RelationWrite.manyToMany x.through x.own x.other).assign t.database row.pk (f.relationKeys v) row.created)) :
    Job.Keeps (Changes t.database app.registry S) (relations app t (rowWithin app t levels) s o row) := by
  have hA := halone.allowed
  rw [relations, hparts]
  refine Job.bind_changes (forM_keys_changes hfield hnames hv hS (fun e other hentry hother => ?_) ?_)
    (fun _ => Job.Keeps.forM (Job.composes_changes .refl .trans) fun e he => ?_) id hS.before
  · exact (entry_beside hA levels row.pk row.created hentry hother).1
  · refine relation_changes hS.refl o f ?_
    rw [hwrite]
    exact hassign
  · obtain ⟨hnested, hholds, other, hentry, hother⟩ := (fromData_split s op data).objects e.1 e.2 he
    refine (entry_beside hA levels row.pk row.created (List.mem_filter.mpr ⟨hentry, ?_⟩) hother).2 hholds
    -- The entry itself gives keys, not objects.
    refine bne_iff_ne.mpr fun hsame => ?_
    cases hsame
    obtain rfl : f = e.1 := Option.some.inj (hfield.symm.trans hother)
    obtain rfl : e.2 = v := Option.some.inj
      (((lookup_eq_some_iff_mem hnames).mpr hentry).symm.trans ((lookup_eq_some_iff_mem hnames).mpr hv))
    rcases hkeys with hnone | hnone
    · rw [hnone] at hnested
      cases hnested
    · rw [hnone] at hholds
      cases hholds

/-- A save changes the table of a through model as the entry does that is given for it, once its row is
written. -/
theorem rowWithin_changes (levels : Nat) {Before : Store → Prop}
    (hassign : ∀ st row st', Before st → Wrote app.registry (fun _ => True) s data [] st row st' →
      Job.Keeps (Changes t.database app.registry S)
        ((RelationWrite.manyToMany x.through x.own x.other).assign t.database row.pk (f.relationKeys v) row.created)) :
    Job.Keeps (Changes t.database app.registry fun st st' => Before st → S st st')
      (rowWithin app t (levels + 1) s o data []) := by
  have hA := halone.allowed
  have hrow : Job.Keeps (Changes t.database app.registry (Beside x.through)) (writeRow app t s o data []) :=
    (writeRow_made hA.looks (hA.writes _ .row) o data []).changes .refl .trans
  refine Job.Ends.bind_changes (fun _ => writeRow_ends) (rowWithin_confined (levels + 1) s o data []) hrow
    (fun st row st' hbefore hwrote => ?_) hS.beside hS.after
  obtain ⟨op, hparts⟩ := hwrote.exists_split
  have hrelations := relations_changes (o := o) hfield hwrite hkeys hnames hv halone hS levels hparts
    (hassign st row st' hbefore hwrote)
  exact .ite (hrelations.bind_pure _) fun w => .refl hS.refl w

end Whole

end Save

namespace Application

variable {app : Application} {s : Schema} {data : Record} {ctx : Context} {o : SaveOptions} {name : String}
  {v : Value} {f : SchemaField} {x : Link} {w : World}

/-- A save links no pair of keys twice through a relation that is given by keys. Where its row stands in all
tables of its inheritance before, it links no pair again that is linked. -/
theorem save_links_once (hx : x.Declared app.registry) (hfield : s.field? name = some f)
    (hwrite : f.relationWrite = some (.manyToMany x.through x.own x.other))
    (hkeys : f.nested = none ∨ v.holdsObjects = false) (hnames : (data.map Prod.fst).Nodup)
    (hv : (name, v) ∈ data) (halone : Save.LinksAlone app s data name x.through)
    (hcolumn : KeyIsColumn app.registry s.model) (hreg : w.registry = app.registry) (database : String) :
    let before := (w.database database).store
    let after := ((w.runJob (app.save s data ctx o)).2.database database).store
    x.AddsOne app.registry before after ∧
      ((∀ level ∈ app.registry.lineage s.model, x.owner ∈ before.keys level) → x.owner.isPlain →
        x.key.isPlain → x.Linked app.registry before → x.AddsNone app.registry before after) := by
  have hnd : (f.relationKeys v).Nodup := nodup_distinctOf _
  refine ⟨?_, fun hstands howner hkey => ?_⟩
  · refine save_changes hx.looksAt_addsOne.refl (fun t w => ?_) hreg database
    have hrow : Job.Keeps (Changes t.database app.registry fun st st' => True → x.AddsOne app.registry st st')
        (Save.row app t s o data) :=
      Save.rowWithin_changes hfield hwrite hkeys hnames hv halone hx.looksAt_addsOne (Value.entriesDepth data)
        fun _ row _ _ _ => hx.assign_addsOne hnd row.created
    exact (hrow w).imp fun h => h trivial
  · refine save_changes (S := fun st st' => (∀ level ∈ app.registry.lineage s.model, x.owner ∈ st.keys level) →
      x.Linked app.registry st → x.AddsNone app.registry st st') (fun st _ _ => .refl x st) (fun t => ?_) hreg
      database hstands
    refine Save.rowWithin_changes hfield hwrite hkeys hnames hv halone hx.looksAt_of_linked
      (Value.entriesDepth data) fun st row st' hstands hwrote => ?_
    by_cases howned : row.pk = x.owner
    · rw [hwrote.created_eq_false hcolumn (howned ▸ howner) (howned ▸ hstands)]
      exact hx.assign_of_linked halone.cascades howner hkey hnd
    · -- Rows of another owner are no links of this one.
      intro w
      exact (hx.assign_addsNone (fun howned' => absurd howned' howned) row.created w).imp fun h _ => h

end Application

/-! ## Links that a child's row inherits -/

namespace Profiles

open Registry (built modelOf tableOf)

def decls : List ModelDecl :=
  [{ name := "tag", fields := [.autoKey "id"] },
    { name := "user"
      fields :=
        [.autoKey "id", { name := "name", type := .char, null := true },
          .of "tags" (.manyToMany "tag" "tagging" "user" "tag" none)] },
    { name := "admin", parent := some "user", fields := [.of "level" .integer] },
    { name := "tagging"
      fields := [.autoKey "id", .of "user" (.foreignKey "user" none), .of "tag" (.foreignKey "tag" none)] }]

def tagging : Model := modelOf (built decls) "tagging"

/-- A user who is no admin yet, with one of two tags. -/
def world : World where
  registry := built decls
  databases := [("default",
    ⟨⟨[("tag", tableOf [(1, []), (2, [])]), ("user", tableOf [(1, [("name", .text "Ann")])]),
      ("tagging", { tableOf [(1, [("user", .int 1), ("tag", .int 1)])] with lastId := 1 })]⟩, [], []⟩)]
  main := "default"
  clock := default
  tick := 0

/-- The schema of a model with the key, the tags and some more fields. -/
def schemaOf (name : String) (more : List FieldDecl) : Schema :=
  match Schema.build (built decls) {} name (modelOf (built decls) name)
    ([{ name := "id" }, { name := "tags" }] ++ more) with
  | .ok s => s
  | .error _ => default

def app : Application := world.application {}

def adminSchema : Schema := schemaOf "admin" [{ name := "level" }]

def userSchema : Schema := schemaOf "user" []

/-- The tags of users. -/
def tagsField : SchemaField := (userSchema.field? "tags").getD default

def tags : Value := .list [.int 1, .int 2]

/-- The user becomes an admin with the tag that the user has. -/
def promotion : Record := [("id", .int 1), ("level", .int 5), ("tags", .list [.int 1])]

/-- The user gets the other tag too. -/
def data : Record := [("id", .int 1), ("tags", tags)]

/-- The user with the first tag. -/
def first : Link := ⟨tagging, "user", "tag", .int 1, .int 1⟩

/-- The rows that link the user to the first tag. -/
def links (w : World) : List Value :=
  let st := (w.database "default").store
  (st.keys tagging).filter fun y =>
    cell (built decls) st tagging y "user" == .int 1 && cell (built decls) st tagging y "tag" == .int 1

/-- A save that succeeds, puts a row below a parent's and links a tag again that was linked. -/
theorem extension_links_again :
    (world.runJob (app.save adminSchema promotion {} {})).1.toOption = some (.int 1) ∧ links world = [.int 1] ∧
      links (world.runJob (app.save adminSchema promotion {} {})).2 = [.int 1, .int 2] := by
  decide +kernel

theorem declared_first : first.Declared app.registry where
  rooted := Registry.rooted_of_build (show Registry.build decls = .ok _ from rfl)
  through := by decide +kernel
  own := ⟨by decide +kernel, by decide +kernel, by decide, ⟨_, rfl, rfl, rfl, rfl⟩⟩
  other := ⟨by decide +kernel, by decide +kernel, by decide, ⟨_, rfl, rfl, rfl, rfl⟩⟩
  apart := by decide

theorem linksAlone_tags : Save.LinksAlone app userSchema data "tags" tagging where
  touches m hm := by
    have hkey : ∀ {e : String × Value}, e ∈ data.filter (·.1 != "tags") → e = ("id", .int 1) :=
      List.mem_singleton.mp
    cases hm with
    | row => decide +kernel
    | relation hentry hfield hwrite =>
        cases hkey hentry
        cases hfield
        cases hwrite
    | nested hentry _ _ hobject _ =>
        cases hkey hentry
        cases hobject
  prunes m hm := by
    refine absurd hm (Save.not_prunes (fun e he => ?_) m)
    obtain rfl := List.mem_singleton.mp he
    exact ⟨rfl, rfl⟩
  cascades e he := absurd he List.not_mem_nil

/-- A save of the user with both tags leaves the one link to the first tag. -/
theorem save_keeps_first_link :
    (userSchema.field? "tags" = some tagsField ∧
      tagsField.relationWrite = some (.manyToMany tagging "user" "tag") ∧ tags.holdsObjects = false ∧
      KeyIsColumn app.registry userSchema.model ∧
      first.Linked app.registry (world.database "default").store) ∧
    first.AddsOne app.registry (world.database "default").store
        ((world.runJob (app.save userSchema data {} {})).2.database "default").store ∧
      first.AddsNone app.registry (world.database "default").store
        ((world.runJob (app.save userSchema data {} {})).2.database "default").store := by
  have hfield : userSchema.field? "tags" = some tagsField := rfl
  have hwrite : tagsField.relationWrite = some (.manyToMany tagging "user" "tag") := rfl
  have hcolumn : KeyIsColumn app.registry userSchema.model := ⟨_, rfl, rfl, rfl, rfl⟩
  have hstands : ∀ level ∈ app.registry.lineage userSchema.model,
      .int 1 ∈ (world.database "default").store.keys level := by
    decide +kernel
  have hlinked : first.Linked app.registry (world.database "default").store :=
    ⟨.int 1, rfl, by decide +kernel, by decide +kernel, by decide +kernel⟩
  obtain ⟨hone, hnone⟩ := @Application.save_links_once app userSchema data {} {} "tags" tags tagsField first world
    declared_first hfield hwrite (.inr rfl) (by decide) (.tail _ (.head _)) linksAlone_tags hcolumn rfl "default"
  exact ⟨⟨hfield, hwrite, rfl, hcolumn, hlinked⟩, hone, hnone hstands rfl rfl hlinked⟩

end Profiles

end RecordMapper
