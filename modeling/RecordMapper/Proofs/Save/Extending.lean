import RecordMapper.Proofs.Read.Unfiltered
import RecordMapper.Proofs.Save.Columns
import RecordMapper.Proofs.Save.Written

/-!
# Extending — rows of a parent under a new row of a child

A save whose key has a row in the parent's table and none in its own
puts a row below the parent's. It goes on to update the inherited
columns with what a new row would get, and so it writes more than its
data names: what the fields of the schema fill in goes over what the
parent's row holds.
-/

namespace RecordMapper

open Store

namespace Save

variable {app : Application} {t : WriteTarget} {reg : Registry} {times : Instant → Prop} {s : Schema}
  {o : SaveOptions} {data : Record} {st st' : Store} {a : Model} {f : Field} {k v : Value} {row : WrittenRow}

/-- No entry of some data names a field of a column. -/
def LeavesOut (s : Schema) (data : Record) (column : String) : Prop :=
  ∀ e ∈ data, ∀ g, s.field? e.1 = some g → g.column ≠ some column

theorem LeavesOut.not_mem_split {e : String × Value} (h : LeavesOut s data e.1) (op : Operation) :
    e ∉ (SaveParts.split s op data).columns := by
  intro hmem
  obtain ⟨entry, hentry, g, hg, hcolumn⟩ := (fromData_split s op data).columns e hmem
  exact h entry hentry g hg hcolumn

section

variable {e : String × Value} {now : Instant} (hleft : LeavesOut s data e.1) (hnow : times now)
include hleft hnow

/-- What changes in a column that is left out is filled in. -/
theorem LeavesOut.fills_of_updated (he : e ∈ (SaveParts.split s .update data).updateColumns s now []) :
    s.Fills times e.1 e.2 := by
  rcases SaveParts.mem_updateColumns hnow he with hcolumns | hextra | hfills
  · exact absurd hcolumns (hleft.not_mem_split .update)
  · cases hextra
  · exact hfills

/-- What is left to update in such a column below a parent's row is filled in too: the key is taken out. -/
theorem LeavesOut.fills_of_extended {pk : Option Value}
    (he : e ∈ ((SaveParts.split s .create data).createColumns s now pk []).withoutKey s.model) :
    s.Fills times e.1 e.2 := by
  obtain ⟨he, _⟩ := List.mem_filter.mp he
  obtain ⟨he, hkey⟩ := List.mem_filter.mp he
  rcases SaveParts.mem_createColumns hnow he with hcolumns | hpk | hextra | hfills
  · exact absurd hcolumns (hleft.not_mem_split .create)
  · rw [hpk] at hkey
    simp at hkey
  · cases hextra
  · exact hfills

end

/-- A row that stands keeps what it holds in a column that is left out, unless a field fills it in. -/
theorem Wrote.holds (h : Wrote reg times s data [] st row st') (hr : reg.Rooted) (hm : s.model ∈ reg.models)
    (ha : a ∈ reg.models) (hf : f ∈ a.own) (hc : f.isConcrete) (hleft : LeavesOut s data f.name)
    (hholds : Holds reg a k f (fun x => x = v ∨ s.Fills times f.name x) st) :
    Holds reg a k f (fun x => x = v ∨ s.Fills times f.name x) st' := by
  cases h with
  | found key hnow selected some overwritten =>
      rw [overwritten]
      refine hholds.overwrite hr hm ha hf hc (fun e he hname => .inr ?_) _
      exact hname ▸ LeavesOut.fills_of_updated (hname ▸ hleft) hnow he
  | extended key hnow missing given inserted updated =>
      have hbelow := hholds.insertChild hr hm ha hf hc inserted
      rcases updated with ⟨_, rfl⟩ | ⟨n, hupdate⟩
      · exact hbelow
      · obtain ⟨pks, _, rfl, _⟩ := update_eq_ok hupdate
        refine hbelow.overwrite hr hm ha hf hc (fun e he hname => .inr ?_) pks
        rw [given] at he
        exact hname ▸ LeavesOut.fills_of_extended (hname ▸ hleft) hnow he
  | created hnow inserted => exact hholds.insert hr hm ha hf hc inserted

end Save

namespace Application

variable {app : Application} {t : WriteTarget} {s : Schema} {data : Record} {ctx : Context} {o : SaveOptions}
  {parent a : Model} {f : Field} {k pk : Value} {w : World}

/-- A save of a child's row without relations leaves in the rows of the parent and its ancestors what the
columns hold that the data leaves out, but for columns that fields of the schema fill in. -/
theorem save_keeps_inherited (hr : app.registry.Rooted) (hm : s.model ∈ app.registry.models)
    (hparent : app.registry.parent? s.model = some parent) (ha : a ∈ app.registry.lineage parent)
    (hf : f ∈ a.own) (hc : f.isConcrete) (hleft : Save.LeavesOut s data f.name)
    (halone : o.withRelations = false) (ht : WriteTarget.of app.connections ctx o = .ok t)
    (hreg : w.registry = app.registry)
    (hk : ∀ upper ∈ app.registry.lineage parent, k ∈ (w.database t.database).store.keys upper)
    (hok : (w.runJob (app.save s data ctx o)).1 = .ok pk) :
    let old := cell app.registry (w.database t.database).store a k f.name
    let new := cell app.registry ((w.runJob (app.save s data ctx o)).2.database t.database).store a k f.name
    new = old ∨ s.Fills w.Shows f.name new := by
  intro old new
  have hpm := (Registry.parent?_eq_some hparent).2
  have ham := hr.mem_models hpm ha
  have hstands : Holds app.registry a k f (fun x => x = old ∨ s.Fills w.Shows f.name x)
      (w.database t.database).store :=
    ⟨hk a ha, hk _ (hr.rootOf_of_mem_lineage hpm ha ▸ app.registry.rootOf_mem_lineage parent), .inl rfl⟩
  have hends : Job.Ends t.database app.registry w.Shows (w.database t.database).store (app.save s data ctx o)
      fun _ st' => Holds app.registry a k f (fun x => x = old ∨ s.Fills w.Shows f.name x) st' :=
    save_ends ht <| (Save.row_ends_of_alone halone).imp fun _ _ ⟨_, _, hwrote⟩ =>
      hwrote.holds hr hm ham hf hc hleft hstands
  exact (hends w hreg (fun _ h => h) rfl pk hok).cell

end Application

/-! ## What fields fill in over a parent's row -/

namespace Staff

open Registry (built modelOf tableOf)

def decls : List ModelDecl :=
  [{ name := "user"
     fields :=
      [.autoKey "id", .of "name" .char, .of "nick" .char, { name := "seen", type := .instant, autoNow := true },
        { name := "joined", type := .instant, autoNowAdd := true }] },
    { name := "admin", parent := some "user", fields := [.of "level" .integer] }]

def user : Model := modelOf (built decls) "user"

def admin : Model := modelOf (built decls) "admin"

/-- A user who is no admin yet. -/
def ann : Record :=
  [("id", .int 1), ("name", .text "Ann"), ("nick", .text "annie"), ("seen", .instant ⟨100, 0⟩),
    ("joined", .instant ⟨50, 0⟩)]

def world : World where
  registry := built decls
  databases := [("default", ⟨⟨[("user", tableOf [(1, ann)])]⟩, [], []⟩)]
  main := "default"
  clock := ⟨200, 0⟩
  tick := 0

def adminSchema : Schema :=
  match Schema.build (built decls) {} "Admin" admin
    [{ name := "id" }, { name := "level" }, { name := "name" },
      { name := "nick", default := some (.fixed (.text "anon")) }, { name := "seen" }, { name := "joined" }] with
  | .ok s => s
  | .error _ => default

def app : Application := world.application {}

/-- Ann becomes an admin. -/
def data : Record := [("id", .int 1), ("level", .int 5)]

def options : SaveOptions := { withRelations := false }

def saved : World := (world.runJob (app.save adminSchema data {} options)).2

/-- A column of Ann's row. -/
def column (w : World) (name : String) : Value := cell app.registry (w.database "default").store user (.int 1) name

/-- A save that succeeds and puts a row below a parent's whose columns it does not name, but of which it
changes the one with a default and both stamps. -/
theorem extension_overwrites_parent :
    (world.runJob (app.save adminSchema data {} options)).1.toOption = some (.int 1) ∧
      .int 1 ∈ (world.database "default").store.keys user ∧
      .int 1 ∉ (world.database "default").store.keys admin ∧ data.map Prod.fst = ["id", "level"] ∧
      (["nick", "seen", "joined"].map (column world) =
        [.text "annie", .instant ⟨100, 0⟩, .instant ⟨50, 0⟩]) ∧
      ["nick", "seen", "joined"].map (column saved) =
        [.text "anon", .instant ⟨200, 0⟩, .instant ⟨200, 0⟩] := by
  decide +kernel

/-- The name of a user. -/
def nameField : Field := .of "name" .char

/-- The save keeps Ann's name, which it leaves out and no field fills in. -/
theorem extension_keeps_name :
    (app.registry.parent? adminSchema.model = some user ∧ nameField ∈ user.own ∧
      Save.LeavesOut adminSchema data nameField.name ∧
      (world.runJob (app.save adminSchema data {} options)).1.toOption = some (.int 1)) ∧
    (column saved nameField.name = column world nameField.name ∨
      adminSchema.Fills world.Shows nameField.name (column saved nameField.name)) := by
  have hr : app.registry.Rooted := Registry.rooted_of_build (show Registry.build decls = .ok _ from rfl)
  have hm : adminSchema.model ∈ app.registry.models := by decide +kernel
  have hparent : app.registry.parent? adminSchema.model = some user := by decide +kernel
  have ha : user ∈ app.registry.lineage user := by decide +kernel
  have hf : nameField ∈ user.own := by decide +kernel
  have hleft : Save.LeavesOut adminSchema data nameField.name := by
    have hcolumns : ∀ e ∈ data, (adminSchema.field? e.1).bind (·.column) ≠ some nameField.name := by
      decide +kernel
    intro e he g hg hcolumn
    exact hcolumns e he (by rw [hg, Option.bind_some, hcolumn])
  have ht : WriteTarget.of app.connections {} options = .ok ⟨"default", true⟩ := rfl
  have hkeys : ∀ upper ∈ app.registry.lineage user, .int 1 ∈ (world.database "default").store.keys upper := by
    decide +kernel
  have hok : (world.runJob (app.save adminSchema data {} options)).1.toOption = some (.int 1) := by decide +kernel
  have hkept := Application.save_keeps_inherited hr hm hparent ha hf rfl hleft rfl ht rfl hkeys
    (Outcome.toOption_eq_some.mp hok)
  exact ⟨⟨hparent, hf, hleft, hok⟩, hkept⟩

end Staff

end RecordMapper
