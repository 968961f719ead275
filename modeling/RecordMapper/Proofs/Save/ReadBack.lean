import RecordMapper.Proofs.Read.StoredRow
import RecordMapper.Proofs.Registry.Navigable
import RecordMapper.Proofs.Save.Columns
import RecordMapper.Proofs.Save.Forbidden
import RecordMapper.Proofs.Save.Skipped
import RecordMapper.Proofs.Save.Written
import RecordMapper.Proofs.Store.Cells

/-!
# Read back — what a save without relations leaves in its row

A save through a schema of a model without a parent writes one row and
leaves every other row of every table (`Save.Saved`). The row has the
values of the entries whose fields may be written by the operation: no
other field writes their columns, a stamp is for columns that no data
writes, and defaults fill in what is missing. An update leaves the
columns that are neither given nor stamped. A read for the key then
returns these values under the names of the fields.
-/

namespace RecordMapper

open Store

/-- No two fields of a schema are written to one column by an operation. -/
def Schema.WritesApart (s : Schema) (op : Operation) : Prop :=
  ∀ f ∈ s.fieldList, ∀ g ∈ s.fieldList, f.mode.allows op → g.mode.allows op → f.column.isSome →
    f.column = g.column → f.name = g.name

variable {decls : List ModelDecl} {reg : Registry} {s : Schema} {data : Record} {st st' : Store} {pk : Value}
  {op : Operation} {f : SchemaField} {e : String × Value} {column : String}

theorem Schema.writesApart_of_nodup (h : (s.fieldList.map (·.column)).Nodup) (op : Operation) :
    s.WritesApart op := by
  intro f hf g hg _ _ _ hcolumn
  exact congrArg _ (List.inj_on_of_nodup_map h hf hg hcolumn)

/-- A value that is no object stands for itself. -/
theorem SchemaField.keyOf_of_ne_map (f : SchemaField) {v : Value} (h : ∀ entries, v ≠ .map entries) : f.keyOf v = v := by
  cases v with
  | map entries => exact absurd rfl (h entries)
  | _ => rfl

/-- A column of a model that is not its key, and is found by its name. -/
structure StoredColumn (reg : Registry) (m : Model) (column : String) (c : Field) : Prop where
  own : c ∈ m.own
  name : c.name = column
  concrete : c.isConcrete
  ne_key : column ≠ "pk" ∧ column ≠ m.pkName
  beside : ∀ g ∈ reg.localColumns m, g.name = column → g.primaryKey = false
  found : reg.field? m column = some c

theorem StoredColumn.owner? {m : Model} {c : Field} (h : StoredColumn reg m column c) (hr : reg.Rooted)
    (hm : m ∈ reg.models) : columnOwner? reg m column = some m :=
  h.name ▸ columnOwner?_of_own hr hm h.own h.concrete

/-- The column that a field beside the key writes is one of the model's own. -/
theorem Schema.Declared.storedColumn (hreg : Registry.build decls = .ok reg) (hs : s.Declared reg)
    (htop : s.model.parent = none) (hf : f ∈ s.fieldList) (hkey : f.isPrimaryKey = false)
    (hcolumn : f.column = some column) : ∃ c, f.modelField = some c ∧ StoredColumn reg s.model column c := by
  obtain ⟨settled, hb⟩ := Registry.builtFrom_of_build hreg
  have hplaced := (hs.written hf).placed
  have hne : column ≠ s.model.pkName := fun h => by
    rw [(hplaced.isPrimaryKey_iff hcolumn).mpr h] at hkey
    cases hkey
  obtain ⟨c, hmodel, hname, hconcrete, halias, hfound⟩ := hplaced.field_of_column hcolumn hne
  have hown := hb.mem_own_of_field? hs.mem_models htop hfound hconcrete
  refine ⟨c, hmodel, hown, hname, hconcrete, ⟨halias, hne⟩, fun g hg hgname => ?_, hfound⟩
  rw [Registry.localColumns, htop] at hg
  have hgown : g ∈ s.model.own := by simpa using (List.mem_filter.mp hg).1
  cases hprimary : g.primaryKey with
  | false => rfl
  | true => exact absurd (hgname.symm.trans (hb.of_primaryKey hs.mem_models hgown hprimary).2) hne

/-- A column that some field stamps at every save is declared to be. -/
theorem Schema.Declared.autoNow_of_stampsChanges (hreg : Registry.build decls = .ok reg) (hs : s.Declared reg)
    (htop : s.model.parent = none) (hf : f ∈ s.fieldList) (hcolumn : f.column = some column) {c : Field}
    (hfound : reg.field? s.model column = some c) (hstamps : f.stampsChanges) : c.autoNow := by
  obtain ⟨c', hmodel', hstamped⟩ := (Option.any_eq_true _ _).mp hstamps
  obtain ⟨hauto, hkey⟩ := Bool.and_eq_true_iff.mp hstamped
  obtain ⟨c'', hmodel, _, _, _, _, _, hfound'⟩ := hs.storedColumn hreg htop hf ((Bool.not_eq_true' _).mp hkey) hcolumn
  obtain rfl : c' = c'' := Option.some.inj (hmodel'.symm.trans hmodel)
  obtain rfl : c = c' := Option.some.inj (hfound.symm.trans hfound')
  exact hauto

namespace Save

/-- The operation that a save has performed on the row of a key: an update where the key stood, and otherwise a
creation. -/
def operationAt (st : Store) (m : Model) (pk : Value) : Operation := if (st.keys m).contains pk then .update else .create

/-- What a save without relations has done by an operation: the row of the key stands with what is given, every
other row is as it was, and an update has left the columns that were neither given nor stamped. -/
structure Saved (reg : Registry) (s : Schema) (op : Operation) (data : Record) (pk : Value) (st st' : Store) : Prop where
  stands : pk ∈ st'.keys s.model
  same : SameBut reg s.model pk st st'
  given : ∀ e ∈ data, ∀ f, s.field? e.1 = some f → f.isPrimaryKey = false → f.mode.allows op →
    f.relationWrite = none → ∀ column, f.column = some column → cell reg st' s.model pk column = f.keyOf e.2
  kept : op = .update → ∀ c ∈ s.model.own, c.isConcrete →
    (∀ e ∈ data, ∀ f, s.field? e.1 = some f → f.column ≠ some c.name) →
    (∀ f ∈ s.fieldList, f.column = some c.name → f.stampsChanges = false) →
    cell reg st' s.model pk c.name = cell reg st s.model pk c.name

section Rows

variable (hreg : Registry.build decls = .ok reg) (hdots : ∀ m ∈ reg.models, '.' ∉ m.pkName.toList)
  (hs : s.Declared reg) (htop : s.model.parent = none) (hapart : s.WritesApart op)
  (hnames : (data.map Prod.fst).Nodup)
include hreg hdots hs hapart hnames

/-- What is given for a column is what its own entry says. -/
theorem lookup_given (he : e ∈ data) (hf : s.field? e.1 = some f) (hkey : f.isPrimaryKey = false)
    (hallows : f.mode.allows op) (hwrite : f.relationWrite = none) (hcolumn : f.column = some column) :
    (SaveParts.split s op data).columns.lookup column = some (f.keyOf e.2) := by
  have hkeys := Registry.keysFound_of_build hreg hdots
  refine SaveParts.lookup_columns_split hnames he hf hkey hallows hwrite hcolumn fun entry _ g hg hgkey hgallows hg' => ?_
  have hname : g.name = f.name := hapart g (Schema.mem_fieldList_of_field? hg) f (Schema.mem_fieldList_of_field? hf)
    hgallows hallows (by rw [hg']; rfl) (hg'.trans hcolumn.symm)
  have hentry := (Schema.name_of_field? hkeys hs hg).resolve_left (by simp [hgkey])
  have hown := (Schema.name_of_field? hkeys hs hf).resolve_left (by simp [hkey])
  rw [← hentry, hname, hown]

include htop

/-- A row that is created has what is given. -/
theorem saved_of_created (hop : op = .create) {now at' : Instant}
    (h : insert reg at' st s.model ((SaveParts.split s .create data).createColumns s now (s.keyOf? data) []) =
      .ok (pk, st')) : Saved reg s op data pk st st' := by
  subst hop
  have hr := Registry.rooted_of_build hreg
  have hm := hs.mem_models
  refine ⟨mem_keys_insert hr hm h (reg.self_mem_lineage _), sameBut_insert hr hm htop h,
    fun e he f hf hkey hallows hwrite column hcolumn => ?_, nofun⟩
  obtain ⟨c, _, hown, rfl, hconcrete, hne, hbeside, _⟩ :=
    hs.storedColumn hreg htop (Schema.mem_fieldList_of_field? hf) hkey hcolumn
  refine cell_insert hr hm h (reg.self_mem_lineage _) hown hconcrete hne hbeside ?_
  exact SaveParts.lookup_createColumns_of_columns hne.2
    (lookup_given hreg hdots hs hapart hnames he hf hkey hallows hwrite hcolumn) now _

/-- A row that is found has what is given, and keeps what is not. -/
theorem saved_of_found (hop : op = .update) (hplain : pk.isPlain) {now : Instant} {pks : List Value} (hpks : pks ≠ [])
    (hown : ∀ k ∈ pks, k = pk ∧ pk ∈ st.keys s.model)
    (h : st' = overwrite reg s.model ((SaveParts.split s .update data).updateColumns s now []) pks st) :
    Saved reg s op data pk st st' := by
  subst hop h
  have hr := Registry.rooted_of_build hreg
  have hm := hs.mem_models
  obtain ⟨k, hk⟩ := List.exists_mem_of_ne_nil pks hpks
  obtain ⟨rfl, hstood⟩ := hown k hk
  have hroot : k ∈ st.keys (reg.rootOf s.model) := by rwa [reg.rootOf_of_top htop]
  have hover := update_overwrites hr hm st pks ((SaveParts.split s .update data).updateColumns s now [])
  refine ⟨?_, sameBut_overwrite hr hm htop hplain (fun k' hk' => (hown k' hk').1) _,
    fun e he f hf hkey hallows hwrite column hcolumn => ?_, fun _ c hc hconcrete hgiven hstamped => ?_⟩
  · rw [overwrite, hover.keys _ hm]
    exact hstood
  · have hmem := Schema.mem_fieldList_of_field? hf
    obtain ⟨c, hmodel, hc, rfl, hconcrete, hne, _, hfound⟩ := hs.storedColumn hreg htop hmem hkey hcolumn
    have hlookup := lookup_given hreg hdots hs hapart hnames he hf hkey hallows hwrite hcolumn
    have hthere : Holds reg s.model k c (fun _ => True) st := ⟨hstood, hroot, trivial⟩
    refine (hthere.overwritten hr hm hm hc hconcrete (columnOwner?_of_own hr hm hc hconcrete) hne hk ?_ fun x hx hname => ?_).cell
    · exact List.mem_map.mp (SaveParts.subset_names_updateColumns now _ (mem_keys_of_lookup hlookup))
    · rcases SaveParts.mem_updateColumns_stamped hx with hgiven | hnone | ⟨g, hg, hgcolumn, hstamps, _⟩
      · rw [← hname] at hlookup
        have hx' := (lookup_eq_some_iff_mem (SaveParts.nodup_names_split .update data)).mpr hgiven
        exact Option.some.inj (hx'.symm.trans hlookup)
      · cases hnone
      · -- A stamped column is not written from data.
        rw [hname] at hgcolumn
        have hstamped : c.autoNow := hs.autoNow_of_stampsChanges hreg htop hg hgcolumn hfound hstamps
        have hmode := (hs.written hmem).stamped c (by rw [hcolumn]; rfl) hmodel (by rw [hstamped]; rfl)
        rw [hmode] at hallows
        cases hallows
  · have hthere : Holds reg s.model k c (· = cell reg st s.model k c.name) st := ⟨hstood, hroot, rfl⟩
    refine (hthere.overwrite hr hm hm hc hconcrete (fun x hx hname => ?_) pks).cell
    rcases SaveParts.mem_updateColumns_stamped hx with hx | hnone | ⟨g, hg, hgcolumn, hstamps, _⟩
    · obtain ⟨entry, hentry, g, hg, _, _, hgcolumn, _⟩ := SaveParts.mem_columns_split hx
      exact absurd (hname ▸ hgcolumn) (hgiven entry hentry g hg)
    · cases hnone
    · rw [hstamped g hg (hname ▸ hgcolumn)] at hstamps
      cases hstamps

end Rows

/-- A save that has written its row under a plain key has done so by an update where the key stood, and otherwise by
a creation. -/
theorem Wrote.saved (hreg : Registry.build decls = .ok reg) (hdots : ∀ m ∈ reg.models, '.' ∉ m.pkName.toList)
    (hs : s.Declared reg) (htop : s.model.parent = none) (hapart : ∀ op, s.WritesApart op)
    (hnames : (data.map Prod.fst).Nodup) (hself : ∀ k, pathValues reg st s.model k s.model.pkName = .ok [k])
    (hfloat : ∀ k ∈ st.keys s.model, ∀ x, k ≠ .float x) {times : Instant → Prop} {row : WrittenRow}
    (h : Wrote reg times s data [] st row st') (hplain : row.pk.isPlain) :
    Saved reg s (operationAt st s.model row.pk) data row.pk st st' := by
  cases h with
  | found key time selected some overwritten =>
      have hown := eq_of_mem_select_pkIn hself hfloat hplain selected
      obtain ⟨k, hk⟩ := List.exists_mem_of_ne_nil _ some
      have hop : operationAt st s.model _ = .update := if_pos (List.contains_iff_mem.mpr (hown k hk).2)
      exact saved_of_found hreg hdots hs htop (hapart _) hnames hop hplain some hown overwritten
  | extended key time missing given inserted updated =>
      obtain ⟨_, _, _, hparent, _⟩ := insertChild_eq_ok inserted
      rw [Registry.parent?_eq_none_of_parent htop] at hparent
      cases hparent
  | created time inserted =>
      have hop : operationAt st s.model _ = .create :=
        if_neg (mt List.contains_iff_mem.mp (not_mem_of_insert htop inserted))
      exact saved_of_created hreg hdots hs htop (hapart _) hnames hop inserted

end Save

namespace Application

open Save

/-- What a save without relations leaves, and what a read for its key returns. The save goes through a schema of a
model without a parent whose key field is a column and whose other fields write columns of their own; it returns a
plain key, and no stored key is a float. Then a read for the key without a scope returns, if it succeeds, one row,
which has the value of the data under the name of every field that is read as a column of the model itself and may
be written by the operation; it does succeed if no field is isolated or an expression. An update leaves every
column that the data does not name and no field stamps. Every other row of every table is as it was. -/
theorem save_reads_back {w : World} {cat : Catalog} {ctx : Context} {o : SaveOptions} {t : WriteTarget}
    (hreg : Registry.build decls = .ok w.registry) (hdots : ∀ m ∈ w.registry.models, '.' ∉ m.pkName.toList)
    (hs : s.Declared w.registry) (htop : s.model.parent = none)
    (hcolumn : ∀ key ∈ s.fieldList, key.name = s.pkName → key.isIsolated = false) (hapart : ∀ op, s.WritesApart op)
    (hnames : (data.map Prod.fst).Nodup) (hflat : ∀ e ∈ data, ∀ entries, e.2 ≠ .map entries)
    (halone : o.withRelations = false) (ht : WriteTarget.of w.connections ctx o = .ok t)
    (hfloat : ∀ k ∈ (w.database t.database).store.keys s.model, ∀ x, k ≠ .float x)
    (hsave : (w.runJob ((w.application cat).save s data ctx o)).1 = .ok pk) (hplain : pk.isPlain) :
    let w' := (w.runJob ((w.application cat).save s data ctx o)).2
    let st := (w.database t.database).store
    let st' := (w'.database t.database).store
    (∀ c : Context, c.Unscoped → c.database.getD w.main = t.database → ∀ together g,
      (∀ rows, (w'.readRows cat together s (.key pk) c g).1.1 = .ok rows → ∃ row, rows = [row] ∧
        row.getD s.pkName = pk ∧ ∀ e ∈ data, ∀ f, s.field? e.1 = some f → f.isPrimaryKey = false →
          f.mode.read → f.mode.allows (operationAt st s.model pk) → ∀ path, f.kind = .column path →
          (dottedNames path).length = 1 → row.lookup f.name = some e.2) ∧
      ((∀ f ∈ s.fieldList, f.isIsolated = false ∧ f.isExpression = false) →
        ∃ rows, (w'.readRows cat together s (.key pk) c g).1.1 = .ok rows)) ∧
    (operationAt st s.model pk = .update → ∀ c ∈ s.model.own, c.isConcrete →
      (∀ e ∈ data, ∀ f, s.field? e.1 = some f → f.column ≠ some c.name) →
      (∀ f ∈ s.fieldList, f.column = some c.name → f.stampsChanges = false) →
      cell w.registry st' s.model pk c.name = cell w.registry st s.model pk c.name) ∧
    SameBut w.registry s.model pk st st' ∧
    ∀ name, name ≠ t.database → (w'.database name).store = (w.database name).store := by
  intro w' st st'
  have hkeys := Registry.keysFound_of_build hreg hdots
  obtain ⟨key, hkey⟩ := hs.exists_keyField hkeys
  have hself := hkey.pathValues_pkName (hkeys s.model hs.mem_models).1 (hcolumn key hkey.mem hkey.name) st
  have hregistry : w'.registry = w.registry := World.registry_run _ w
  have hconfined : World.Confined t.database w w' := save_confined ht s data w
  have hsaved : Saved w.registry s (operationAt st s.model pk) data pk st st' := by
    have hends := @row_ends_of_alone (w.application cat) t (fun _ => True) s o data st halone
    obtain ⟨row, rfl, hwrote⟩ := save_ends ht hends w rfl (fun _ _ => trivial) rfl pk hsave
    exact hwrote.saved hreg hdots hs htop hapart hnames hself hfloat hplain
  have hmain : w'.main = w.main := World.main_run _ w
  refine ⟨fun c hc hdatabase together g => ⟨fun rows hrows => ?_, fun hfields => ?_⟩, hsaved.kept, hsaved.same,
    fun name hname => hconfined.others name hname⟩
  · rw [← hregistry] at hreg hdots hs
    have hstands : pk ∈ (w'.database (c.database.getD w'.main)).store.keys s.model := by
      rw [hmain, hdatabase]
      exact hsaved.stands
    obtain ⟨row, rfl, hpk, hvalues⟩ :=
      World.readRows_stored hreg hdots hs hplain hc.single hc.forced hcolumn hstands hrows
    refine ⟨row, rfl, hpk, fun e he f hf hfkey hread hallows path hkind hone => ?_⟩
    have hmem := Schema.mem_fieldList_of_field? hf
    obtain ⟨p, hp, _, hconcrete, hwrite, hdirect⟩ := (hs.written hmem).placed.of_kind hkind
    have hbefore := Registry.direct_of_one hp hone
    rw [hvalues f (ReadPlan.mem_requested_of_unscoped hc hmem hread) path p hkind hp hbefore hconcrete, hmain,
      hdatabase, hregistry]
    refine congrArg some ((hsaved.given e he f hf hfkey hallows hwrite _ (hdirect hbefore)).trans ?_)
    exact f.keyOf_of_ne_map (hflat e he)
  · rw [← hregistry] at hreg hdots hs
    refine World.exists_readRows hreg hdots hs hc.forced ?_ hfields [pk]
    rw [hmain, hdatabase, hconfined.names]
    exact mem_names_of_target ht

end Application

/-! ## A note that is changed -/

namespace SealedNotes

/-- A save that leaves relations alone. -/
def alone : SaveOptions := { withRelations := false }

/-- The result of the save of the new title, and the world after it. -/
def changed : Outcome Value × World := world.runJob ((world.application {}).save sealed honest {} alone)

/-- A note that is changed is read back with its new title, and keeps its author. -/
theorem update_reads_back :
    (changed.1 = .ok (.int 1) ∧ Save.operationAt (world.database "default").store note (.int 1) = .update) ∧
    (∀ c : Context, c.Unscoped → c.database.getD "default" = "default" → ∀ together g, ∃ row,
      (changed.2.readRows {} together sealed (.key (.int 1)) c g).1.1 = .ok [row] ∧
        row.getD "id" = .int 1 ∧ row.lookup "title" = some (.text "New")) ∧
    cell world.registry (changed.2.database "default").store note (.int 1) "author" = .text "Ann" := by
  have hreg : Registry.build decls = .ok world.registry := rfl
  have hdots : ∀ m ∈ world.registry.models, '.' ∉ m.pkName.toList := by decide
  have hcolumn : ∀ key ∈ sealed.fieldList, key.name = sealed.pkName → key.isIsolated = false := by decide +kernel
  have hnames : (honest.map Prod.fst).Nodup := by decide
  have hflat : ∀ e ∈ honest, ∀ entries, e.2 ≠ .map entries := by simp [honest]
  have hfloat : ∀ k ∈ (world.database "default").store.keys note, ∀ x, k ≠ .float x := by
    have hkeys : (world.database "default").store.keys note = [.int 1] := by decide +kernel
    intro k hk x
    rw [hkeys] at hk
    rw [List.mem_singleton.mp hk]
    nofun
  have hsave : changed.1 = .ok (.int 1) := Outcome.toOption_eq_some.mp (by decide +kernel)
  have hop : Save.operationAt (world.database "default").store note (.int 1) = .update := by decide +kernel
  obtain ⟨hread, hkept, _⟩ := Application.save_reads_back hreg hdots declared_sealed rfl hcolumn
    (Schema.writesApart_of_nodup (by decide +kernel)) hnames hflat rfl (t := ⟨"default", true⟩) rfl hfloat hsave rfl
  refine ⟨⟨hsave, hop⟩, fun c hc hdatabase together g => ?_, ?_⟩
  · obtain ⟨hrow, hsucceeds⟩ := hread c hc hdatabase together g
    obtain ⟨rows, hrows⟩ := hsucceeds (by decide +kernel)
    obtain ⟨row, rfl, hpk, hvalues⟩ := hrow rows hrows
    obtain ⟨f, hf, hname, hkey, hmode, hallows, hkind⟩ : ∃ f, sealed.field? "title" = some f ∧ f.name = "title" ∧
        f.isPrimaryKey = false ∧ f.mode.read ∧ f.mode.allows .update ∧ f.kind = .column "title" :=
      ⟨_, rfl, rfl, rfl, rfl, rfl, rfl⟩
    refine ⟨row, hrows, hpk, hname ▸ ?_⟩
    exact hvalues ("title", .text "New") (by simp [honest]) f hf hkey hmode (hop ▸ hallows) "title" hkind (by decide)
  · have hauthor : cell world.registry (world.database "default").store note (.int 1) "author" = .text "Ann" := by
      decide +kernel
    rw [← hauthor]
    exact hkept hop { Field.of "author" .char with null := true } (by decide +kernel) rfl (by decide +kernel)
      (by decide +kernel)

end SealedNotes
/-! ## Rows that are not read back -/

namespace UnreadRows

open Registry (built modelOf)

/-- Notes, and labels whose key is a document unless it is given. -/
def declared : List ModelDecl :=
  [{ name := "note", fields := [.autoKey "id", .of "title" .char] },
    { name := "label"
      fields := [{ Field.of "id" .json with default := some (.json (.bool true)) }.asPrimaryKey, .of "name" .char] }]

def world : World where
  registry := built declared
  databases := [("default", .empty)]
  main := "default"
  clock := default
  tick := 0

/-- A score that cannot be had. -/
def noScore : FieldFunction := ⟨.constant (.error (.operational "no score")), none⟩

def noteFields : List FieldDecl := [{ name := "title" }, { name := "score", source := .function noScore }]

/-- A note with its score. -/
def scored : Schema :=
  match Schema.build (built declared) {} "Note" (modelOf (built declared) "note") noteFields with
  | .ok s => s
  | .error _ => default

def labelFields : List FieldDecl := [{ name := "name" }]

def label : Schema :=
  match Schema.build (built declared) {} "Label" (modelOf (built declared) "label") labelFields with
  | .ok s => s
  | .error _ => default

/-- The key of a save without relations, and the rows that a read for it returns. -/
def savedAndRead (w : World) (cat : Catalog) (s : Schema) (data : Record) : Option (Value × Option (List Record)) :=
  let (result, w') := w.runJob ((w.application cat).save s data {} SealedNotes.alone)
  result.toOption.map fun pk => (pk, (w'.readRows cat false s (.key pk) {} .empty).1.1.toOption)

/-- A row that is saved may not be read back: a function of its schema fails, its key is a document, which no
condition finds, or its key field leads to another model, so that no row that is fetched has a key. -/
theorem saved_not_read_back :
    (scored.Declared world.registry ∧ (∀ op, scored.WritesApart op) ∧
      savedAndRead world {} scored [("title", .text "a")] = some (.int 1, none)) ∧
    (label.Declared world.registry ∧ (∀ op, label.WritesApart op) ∧
      savedAndRead world {} label [("name", .text "a")] = some (.json (.bool true), some [])) ∧
    (World.profileSchema.Declared World.oneAccount.registry ∧ (∀ op, World.profileSchema.WritesApart op) ∧
      savedAndRead World.oneAccount World.userCatalog World.profileSchema [("user", .int 1), ("bio", .text "c")] =
        some (.int 1, some [])) := by
  have hscored : Schema.build (built declared) {} "Note" (modelOf (built declared) "note") noteFields = .ok scored := rfl
  have hlabel : Schema.build (built declared) {} "Label" (modelOf (built declared) "label") labelFields = .ok label := rfl
  have hprofile : Schema.build World.oneAccount.registry World.userCatalog "Profile"
      (modelOf World.oneAccount.registry "profile") World.profileFields = .ok World.profileSchema := rfl
  refine ⟨⟨.built (by decide) hscored, Schema.writesApart_of_nodup (by decide +kernel), by decide +kernel⟩,
    ⟨.built (by decide) hlabel, Schema.writesApart_of_nodup (by decide +kernel), by decide +kernel⟩,
    .built (by decide) hprofile, Schema.writesApart_of_nodup (by decide +kernel), by decide +kernel⟩

end UnreadRows

end RecordMapper
