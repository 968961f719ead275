import RecordMapper.Proofs.Outcomes
import RecordMapper.Proofs.Save.Parts
import RecordMapper.Proofs.Steps.Changes
import RecordMapper.Proofs.Entries
import RecordMapper.Save.Rows

/-!
# Statements — what a save is made of

A save looks rows up, writes rows of the models it touches
(`Save.Touches`) and deletes rows of those it prunes (`Save.Prunes`),
and nothing else: its loops over records and relations, the transactions
around single ones and the levels of nested objects are made of calls of
these kinds (`rowWithin_made`). Only completing a relation deletes, and
only rows of one model (`SchemaField.prunes?`).
-/

namespace RecordMapper

/-! ## Kinds of calls -/

/-- All calls that only look are allowed. -/
structure Call.Looks (A : Call → Prop) : Prop where
  fetch : ∀ qs columns, A (.fetch qs columns)
  count : ∀ qs, A (.count qs)

/-- All calls are allowed that insert or update rows of a model. -/
structure Call.Writes (A : Call → Prop) (m : Model) : Prop where
  insert : ∀ values, A (.insert m values)
  insertChild : ∀ values, A (.insertChild m values)
  update : ∀ qs values, qs.model = m → A (.update qs values)

/-- The model whose rows a relation is written in. -/
def RelationWrite.rows : RelationWrite → Model
  | .manyToMany through .. => through
  | .reverse related .. => related

/-- All calls are allowed that write a relation: those that link rows, or put another value into the foreign key. -/
def RelationWrite.Writable (A : Call → Prop) : RelationWrite → Prop
  | .manyToMany through _ _ => ∀ values, A (.insert through values)
  | .reverse related field _ => ∀ qs v, qs.model = related → A (.update qs [(field, v)])

theorem Call.Writes.writable {A : Call → Prop} {w : RelationWrite} (h : Call.Writes A w.rows) : w.Writable A := by
  cases w with
  | manyToMany through own other => exact h.insert
  | reverse related field nullable => exact fun qs v hqs => h.update qs [(field, v)] hqs

/-- The model whose rows are deleted to complete the relation that a field is given. Of the rows behind a
foreign key only objects for a nested schema delete any. -/
def SchemaField.prunes? (f : SchemaField) (v : Value) : Option Model :=
  match f.relationWrite with
  | some (.manyToMany through _ _) => some through
  | some (.reverse related _ _) => if f.nested.isSome && v.holdsObjects then some related else none
  | none => none

/-- Saving some data through a schema deletes rows of a model to complete a relation, of the record itself
or of an object in it. -/
inductive Save.Prunes (app : Application) : Schema → Record → Model → Prop
  | own {s : Schema} {data : Record} {m : Model} {name : String} {v : Value} {f : SchemaField}
    (entry : (name, v) ∈ data) (field : s.field? name = some f) (prunes : f.prunes? v = some m) :
    Prunes app s data m
  | nested {s n : Schema} {data item : Record} {m : Model} {name : String} {v : Value} {f : SchemaField}
    (entry : (name, v) ∈ data) (field : s.field? name = some f) (schema : app.nested? s f = .ok (some n))
    (object : item ∈ v.objects) (below : Prunes app n item m) : Prunes app s data m

/-- Saving some data through a schema inserts or updates rows of a model: the row of the record, rows of a
relation, or those that an object in it writes. -/
inductive Save.Touches (app : Application) : Schema → Record → Model → Prop
  | row {s : Schema} {data : Record} : Touches app s data s.model
  | relation {s : Schema} {data : Record} {name : String} {v : Value} {f : SchemaField} {w : RelationWrite}
    (entry : (name, v) ∈ data) (field : s.field? name = some f) (write : f.relationWrite = some w) :
    Touches app s data w.rows
  | nested {s n : Schema} {data item : Record} {m : Model} {name : String} {v : Value} {f : SchemaField}
    (entry : (name, v) ∈ data) (field : s.field? name = some f) (schema : app.nested? s f = .ok (some n))
    (object : item ∈ v.objects) (below : Touches app n item m) : Touches app s data m

/-- All calls are allowed that saving some data through a schema makes. -/
structure Save.Allowed (A : Call → Prop) (app : Application) (s : Schema) (data : Record) : Prop where
  looks : Call.Looks A
  writes : ∀ m, Touches app s data m → Call.Writes A m
  deletes : ∀ qs, Prunes app s data qs.model → A (.delete qs)

variable {A : Call → Prop} {database : String} {app : Application} {t : WriteTarget}

namespace RelationWrite

variable {w : RelationWrite} (hlooks : Call.Looks A) (hwrites : w.Writable A)
include hlooks hwrites

theorem assign_made
    (hd : ∀ through own other, w = .manyToMany through own other → ∀ qs, qs.model = through → A (.delete qs))
    (pk : Value) (keys : List Value) (created : Bool) :
    Job.Made database A (w.assign database pk keys created) := by
  cases w with
  | manyToMany through own other =>
      have hlink : ∀ existing, Job.Made database A
          ((missingLinks own other pk keys existing).forM fun row => do
            let _ ← Job.insert database through row) :=
        fun existing => .forM fun row _ => .bind (.ask (hwrites row)) fun _ => .pure _
      -- What is not linked yet is linked, whether or not links were removed before.
      have hrest : Job.Made database A (do
          let existing ← if created then pure [] else
            Job.fetch database (throughRows through own pk) [.ofPath other]
          (missingLinks own other pk keys existing).forM fun row => do
            let _ ← Job.insert database through row) :=
        .ite (.bind (.pure _) hlink) (.bind (.ask (hlooks.fetch _ _)) hlink)
      exact .ite (.bind (.ask (hd through own other rfl _ rfl)) fun _ => hrest) hrest
  | reverse related field nullable =>
      have hpoint : Job.Made database A (do
          if !keys.isEmpty then
            let _ ← Job.update database ((Queryset.all related).pkIn keys) [(field, pk)]) :=
        .ite (.bind (.ask (hwrites _ pk rfl)) fun _ => .pure _) (.pure _)
      exact .ite (.bind (.ask (hwrites _ .null rfl)) fun _ => hpoint) hpoint

theorem complete_made
    (hd : ∀ through own other, w = .manyToMany through own other → ∀ qs, qs.model = through → A (.delete qs))
    {pk : Value} {saved : List Value}
    (hothers : ∀ related field nullable, w = .reverse related field nullable →
      A (.delete (otherRows related field pk saved))) (created : Bool) :
    Job.Made database A (w.complete database pk saved created) := by
  cases w with
  | manyToMany through own other => exact assign_made hlooks hwrites hd pk saved created
  | reverse related field nullable =>
      exact .ite (.bind (.ask (hothers related field nullable rfl)) fun _ => .pure _) (.pure _)

end RelationWrite

namespace Save

/-- Data that completes no relation and holds no objects prunes nothing. -/
theorem not_prunes {s : Schema} {data : Record}
    (h : ∀ e ∈ data, (s.field? e.1).bind (·.prunes? e.2) = none ∧ e.2.objects = []) (m : Model) :
    ¬Prunes app s data m := by
  rintro (⟨hentry, hfield, hprunes⟩ | ⟨hentry, _, _, hobject, _⟩)
  · have hnone := (h _ hentry).1
    rw [hfield, Option.bind_some, hprunes] at hnone
    cases hnone
  · rw [(h _ hentry).2] at hobject
    exact absurd hobject List.not_mem_nil

/-! ## One row -/

section Row

variable {s : Schema} (hlooks : Call.Looks A) (hwrites : Call.Writes A s.model)

theorem parentHas_made (hlooks : Call.Looks A) (s : Schema) (pk : Value) :
    Job.Made t.database A (parentHas app t s pk) := by
  unfold parentHas
  split
  · exact .any hlooks.count _
  · exact .pure _

include hwrites

theorem createRow_made (pk : Option Value) (data extra : Record) :
    Job.Made t.database A (createRow t s pk data extra) :=
  .bind .clock fun _ => .bind (.ask (hwrites.insert _)) fun _ => .pure _

theorem extendParent_made (pk : Value) (data extra : Record) :
    Job.Made t.database A (extendParent app t s pk data extra) := by
  refine .bind .clock fun now => .bind (.ask (hwrites.insertChild _)) fun _ => ?_
  exact .ite (.bind (.ask (hwrites.update _ _ rfl)) fun _ => .pure _) (.pure _)

include hlooks

theorem writeRow_made (o : SaveOptions) (data extra : Record) :
    Job.Made t.database A (writeRow app t s o data extra) := by
  unfold writeRow
  split
  · exact .ite (.bind (.throw _) fun _ => createRow_made hwrites none data extra)
      (createRow_made hwrites none data extra)
  · rename_i pk _
    -- Where no row was updated, one is put below its parent or created.
    have hmissing : Job.Made t.database A (do
        if ← parentHas app t s pk then extendParent app t s pk data extra
        else if o.mustUpdate then throw (.noRowToUpdate s.name pk)
        else createRow t s (some pk) data extra) := by
      refine .bind (parentHas_made hlooks s pk) fun _ => ?_
      exact .ite (extendParent_made hwrites pk data extra)
        (.ite (.throw _) (createRow_made hwrites (some pk) data extra))
    refine .ite (createRow_made hwrites (some pk) data extra) (.bind .clock fun now => ?_)
    have hfound : ∀ affected parts, Job.Made t.database A (do
        if affected > 0 then return ⟨pk, false, parts⟩
        if ← parentHas app t s pk then extendParent app t s pk data extra
        else if o.mustUpdate then throw (.noRowToUpdate s.name pk)
        else createRow t s (some pk) data extra) :=
      fun affected parts => .ite (.pure _) hmissing
    exact .ite (.bind (.ask (hlooks.count _)) fun n => hfound n _)
      (.bind (.ask (hwrites.update _ _ rfl)) fun n => hfound n _)

end Row

/-! ## Loops over records and relations -/

theorem each_made {save : Record → Job Value} (o : SaveOptions) {items : List Record}
    (h : ∀ item ∈ items, Job.Made t.database A (save item)) :
    Job.Made t.database A (each save t o items) := by
  refine .mapM fun item hitem => .ite ?_ (.bind (h item hitem) fun _ => .pure _)
  refine .bind (.attempt (.atomicIf t.transactional (h item hitem))) fun r => ?_
  cases r with
  | ok pk => exact .pure _
  | error f => exact .pure _

theorem relation_made (o : SaveOptions) (f : SchemaField) {write : Job Unit}
    (h : Job.Made t.database A write) : Job.Made t.database A (relation t o f write) := by
  refine .bind (.attempt (.atomicIf _ h)) fun r => ?_
  cases r with
  | ok _ => exact .pure _
  | error e => exact .ite (.pure _) (.throw _)

/-- Writing a relation changes a store as its statements do, whatever failures are passed over. -/
theorem relation_changes {reg : Registry} {S : Store → Store → Prop} (hrefl : ∀ st, S st st) (o : SaveOptions)
    (f : SchemaField) {write : Job Unit} (h : Job.Keeps (World.Changes t.database reg S) write) :
    Job.Keeps (World.Changes t.database reg S) (relation t o f write) := by
  have hsame : ∀ w, World.Changes t.database reg Eq w w := .refl fun _ => rfl
  refine Job.bind_changes (Job.atomicIf_changes hrefl _ h).attempt
    (fun r => (?_ : Job.Keeps (World.Changes t.database reg Eq) _)) id fun hS heq => heq ▸ hS
  cases r with
  | ok _ => exact hsame
  | error e => exact .ite hsame hsame

/-! ## The parts of saved data -/

/-- A field has a nested schema if one is found for it. -/
theorem nested_isSome {s n : Schema} {f : SchemaField} (h : app.nested? s f = .ok (some n)) : f.nested.isSome := by
  unfold Application.nested? at h
  split at h
  · cases h
  · rename_i hnested
    rw [hnested]
    rfl

/-! ## Depth -/

section Depth

variable {name : String} {v : Value} {items : List Value} {data item : Record}

theorem depth_le_itemsDepth (h : v ∈ items) : v.depth ≤ Value.itemsDepth items := by
  induction items with
  | nil => cases h
  | cons w rest ih =>
      rw [Value.itemsDepth]
      rcases List.mem_cons.mp h with rfl | hrest
      · exact Nat.le_max_left _ _
      · exact Nat.le_trans (ih hrest) (Nat.le_max_right _ _)

theorem depth_le_entriesDepth (h : (name, v) ∈ data) : v.depth ≤ Value.entriesDepth data := by
  induction data with
  | nil => cases h
  | cons e rest ih =>
      obtain ⟨name', w⟩ := e
      rw [Value.entriesDepth]
      rcases List.mem_cons.mp h with hsame | hrest
      · cases hsame
        exact Nat.le_max_left _ _
      · exact Nat.le_trans (ih hrest) (Nat.le_max_right _ _)

/-- An object is less deep than the value that lists it. -/
theorem entriesDepth_lt_of_mem_objects (h : item ∈ v.objects) : Value.entriesDepth item < v.depth := by
  obtain ⟨w, hw, hitem⟩ := List.mem_filterMap.mp h
  obtain ⟨entries, rfl⟩ : ∃ entries, w = .map entries := by
    cases w <;> first | exact ⟨_, rfl⟩ | cases hitem
  obtain rfl : entries = item := Option.some.inj hitem
  have hself : Value.entriesDepth entries < (Value.map entries).depth := by
    rw [Value.depth]
    omega
  cases v with
  | null => cases hw
  | list items => exact Nat.lt_of_lt_of_le hself (depth_le_itemsDepth hw)
  | _ => exact List.mem_singleton.mp hw ▸ hself

end Depth

/-- A row is written by creating it, by extending its parent's row, or in place. -/
theorem returns_writeRow {o : SaveOptions} {s : Schema} {data extra : Record} {P : WrittenRow → Prop}
    (hcreate : Job.Returns P (createRow t s (s.keyOf? data) data extra))
    (hextend : ∀ pk, s.keyOf? data = some pk → Job.Returns P (extendParent app t s pk data extra))
    (hfound : ∀ pk, s.keyOf? data = some pk → P ⟨pk, false, SaveParts.split s .update data⟩) :
    Job.Returns P (writeRow app t s o data extra) := by
  unfold writeRow
  split
  · rename_i hkey
    rw [hkey] at hcreate
    exact .ite ((Job.Returns.throw _).bind fun _ (_ : True) => hcreate) hcreate
  · rename_i pk hkey
    rw [hkey] at hcreate
    refine .ite hcreate ((Job.Returns.any _).bind fun now _ => ?_)
    have hafter : ∀ affected : Nat, Job.Returns P (do
        if affected > 0 then return ⟨pk, false, SaveParts.split s .update data⟩
        if ← parentHas app t s pk then extendParent app t s pk data extra
        else if o.mustUpdate then throw (.noRowToUpdate s.name pk)
        else createRow t s (some pk) data extra) := by
      refine fun affected => .ite (.pure (hfound pk hkey)) ?_
      exact (Job.Returns.any _).bind fun _ _ => .ite (hextend pk hkey) (.ite (.throw _) hcreate)
    exact .ite ((Job.Returns.any _).bind fun n _ => hafter n) ((Job.Returns.any _).bind fun n _ => hafter n)

/-- What extending a row yields does not depend on whether columns of the parent are left to update. -/
theorem returns_extendParent {s : Schema} {pk : Value} {data extra : Record} {P : WrittenRow → Prop}
    (h : P ⟨pk, true, SaveParts.split s .create data⟩) :
    Job.Returns P (extendParent app t s pk data extra) := by
  refine (Job.Returns.any _).bind fun _ _ => (Job.Returns.any _).bind fun _ _ => ?_
  exact .ite ((Job.Returns.any _).bind fun _ _ => .pure h) (.pure h)

/-- The row that is written has the parts of its data. -/
theorem returns_split (o : SaveOptions) (s : Schema) (data extra : Record) :
    Job.Returns (fun row => ∃ op, row.parts = SaveParts.split s op data) (writeRow app t s o data extra) :=
  returns_writeRow
    ((Job.Returns.any _).bind fun _ _ => (Job.Returns.any _).bind fun _ _ => .pure ⟨.create, rfl⟩)
    (fun _ _ => returns_extendParent ⟨.create, rfl⟩) fun _ _ => ⟨.update, rfl⟩

theorem returns_fromData (o : SaveOptions) (s : Schema) (data extra : Record) :
    Job.Returns (fun row => FromData s data row.parts) (writeRow app t s o data extra) :=
  (returns_split o s data extra).imp fun _ ⟨op, hparts⟩ => hparts ▸ fromData_split s op data

/-! ## Whole saves -/

theorem objects_made {save : Schema → SaveOptions → Record → Record → Job Value} {s : Schema}
    {f : SchemaField} {v : Value} (hlooks : Call.Looks A) (hholds : v.holdsObjects)
    (hwrites : ∀ w, f.relationWrite = some w → w.Writable A)
    (hd : ∀ qs, f.prunes? v = some qs.model → A (.delete qs))
    (hsave : ∀ n, app.nested? s f = .ok (some n) → ∀ item ∈ v.objects, ∀ o extra,
      Job.Made t.database A (save n o item extra))
    (o : SaveOptions) (pk : Value) (created : Bool) :
    Job.Made t.database A (objects app t save s o pk created f v) := by
  refine .bindOf (.ofOutcome _) (P := fun r => app.nested? s f = .ok r) (fun _ _ h => h) fun r hr => ?_
  split
  · rename_i n w hw
    refine .bind (each_made _ fun item hitem => hsave n hr item hitem _ _) fun saved => ?_
    refine RelationWrite.complete_made hlooks (hwrites w hw) (fun through own other hthrough qs hqs => hd qs ?_)
      (fun related field nullable hreverse => hd _ ?_) created
    · rw [SchemaField.prunes?, hw, hthrough, hqs]
    · rw [SchemaField.prunes?, hw, hreverse]
      exact if_pos (Bool.and_eq_true_iff.mpr ⟨nested_isSome hr, hholds⟩)
  · exact .pure _

/-- Writing the relation that an entry gives for a field is made of allowed calls. -/
structure EntryMade (A : Call → Prop) (app : Application) (t : WriteTarget) (levels : Nat) (s : Schema)
    (o : SaveOptions) (f : SchemaField) (v : Value) : Prop where
  keys : ∀ w, f.relationWrite = some w → ∀ pk created,
    Job.Made t.database A (w.assign t.database pk (f.relationKeys v) created)
  objects : v.holdsObjects → ∀ pk created,
    Job.Made t.database A (objects app t (rowWithin app t levels) s o pk created f v)

/-- Writing an entry changes a store as its statements do. -/
theorem entry_changes {reg : Registry} {S : Store → Store → Prop} (hrefl : ∀ st, S st st)
    (htrans : ∀ {st st' st''}, S st st' → S st' st'' → S st st'') {levels : Nat} {s : Schema} {o : SaveOptions}
    {f : SchemaField} {v : Value} (h : EntryMade (Call.Changing reg S) app t levels s o f v) (pk : Value)
    (created : Bool) :
    Job.Keeps (World.Changes t.database reg S) (relation t o f
      (match f.relationWrite with
        | some w => w.assign t.database pk (f.relationKeys v) created
        | none => return ())) ∧
    (v.holdsObjects → Job.Keeps (World.Changes t.database reg S)
      (relation t o f (objects app t (rowWithin app t levels) s o pk created f v))) := by
  refine ⟨(relation_made o f ?_).changes hrefl htrans, fun hholds => ?_⟩
  · split
    · rename_i w hw
      exact h.keys w hw pk created
    · exact .pure _
  · exact (relation_made o f (h.objects hholds pk created)).changes hrefl htrans

/-- The relations of a row are written entry by entry. -/
theorem relations_made {levels : Nat} {s : Schema} {o : SaveOptions} {data : Record}
    (h : ∀ name v f, (name, v) ∈ data → s.field? name = some f → EntryMade A app t levels s o f v)
    {row : WrittenRow} (hrow : FromData s data row.parts) :
    Job.Made t.database A (relations app t (rowWithin app t levels) s o row) := by
  refine .bind (.forM fun e he => relation_made o e.1 ?_) fun _ => .forM fun e he => relation_made o e.1 ?_
  · obtain ⟨name, hentry, hfield⟩ := hrow.keys e.1 e.2 he
    split
    · rename_i w hw
      exact (h name e.2 e.1 hentry hfield).keys w hw _ _
    · exact .pure _
  · obtain ⟨_, hholds, name, hentry, hfield⟩ := hrow.objects e.1 e.2 he
    exact (h name e.2 e.1 hentry hfield).objects hholds _ _

/-- A row is saved by writing it and then its entries. -/
theorem rowWithin_made_of_entries {levels : Nat} {s : Schema} {o : SaveOptions} {data : Record}
    (hlooks : Call.Looks A) (hwrites : Call.Writes A s.model)
    (h : ∀ name v f, (name, v) ∈ data → s.field? name = some f → EntryMade A app t levels s o f v)
    (extra : Record) : Job.Made t.database A (rowWithin app t (levels + 1) s o data extra) :=
  .bindOf (writeRow_made hlooks hwrites o data extra) (returns_fromData o s data extra) fun _ hrow =>
    .ite (.bind (relations_made h hrow) fun _ => .pure _) (.pure _)

/-- An entry is made of the calls that saving the data makes, if the levels below are. -/
theorem entryMade_of_allowed {levels : Nat}
    (hlevels : ∀ {s : Schema} {data : Record}, Allowed A app s data →
      ∀ o extra, Job.Made t.database A (rowWithin app t levels s o data extra))
    {s : Schema} {o : SaveOptions} {data : Record} (hA : Allowed A app s data) {name : String} {v : Value}
    {f : SchemaField} (hentry : (name, v) ∈ data) (hfield : s.field? name = some f) :
    EntryMade A app t levels s o f v where
  keys w hw pk created :=
    RelationWrite.assign_made hA.looks (hA.writes _ (.relation hentry hfield hw)).writable
      (fun through own other hthrough qs hmodel => hA.deletes qs
        (.own hentry hfield (by rw [SchemaField.prunes?, hw, hthrough, hmodel]))) pk _ created
  objects hholds pk created :=
    objects_made hA.looks hholds (fun w hw => (hA.writes _ (.relation hentry hfield hw)).writable)
      (fun qs hqs => hA.deletes qs (.own hentry hfield hqs))
      (fun _ hn _ hitem => hlevels
        { looks := hA.looks
          writes := fun m hm => hA.writes m (.nested hentry hfield hn hitem hm)
          deletes := fun qs hqs => hA.deletes qs (.nested hentry hfield hn hitem hqs) }) o pk created

/-- Every level of nested objects is made of the calls that saving the data makes. -/
theorem rowWithin_made (levels : Nat) {s : Schema} {data : Record} (hA : Allowed A app s data)
    (o : SaveOptions) (extra : Record) : Job.Made t.database A (rowWithin app t levels s o data extra) := by
  induction levels generalizing s data o extra with
  | zero => exact .pure _
  | succ levels ih =>
      refine rowWithin_made_of_entries hA.looks (hA.writes _ .row) (fun name v f hentry hfield => ?_) extra
      exact entryMade_of_allowed ih hA hentry hfield

/-! ## Saves -/

theorem runJob_mapped {α : Type} (ctx : Context) (j : Job α) (w : World) :
    w.runJob (mapped ctx j) =
      (match (w.runJob j).1 with
        | .ok a => .ok a
        | .error e => .error (ctx.mapFailure e),
      (w.runJob j).2) := by
  rw [mapped, World.runJob_bind, World.runJob_attempt]
  cases (w.runJob j).1 <;> rfl

theorem toOption_mapped {α : Type} (ctx : Context) (j : Job α) (w : World) :
    (w.runJob (mapped ctx j)).1.toOption = (w.runJob j).1.toOption := by
  rw [runJob_mapped]
  cases (w.runJob j).1 <;> rfl

end Save

namespace Application

variable {s : Schema} {data : Record} {ctx : Context} {o : SaveOptions} {reg : Registry} {w : World}

/-- A save changes the stores as writing the record and its relations does. -/
theorem save_changes {S : Store → Store → Prop} (hrefl : ∀ st, S st st)
    (h : ∀ t : WriteTarget, Job.Keeps (World.Changes t.database reg S) (Save.row app t s o data))
    (hreg : w.registry = reg) (database : String) :
    S (w.database database).store ((w.runJob (app.save s data ctx o)).2.database database).store := by
  rw [save, Save.runJob_mapped, World.runJob_bind, World.runJob_ofOutcome]
  cases o.check with
  | error _ => exact hrefl _
  | ok _ =>
      simp only [World.runJob_bind, World.runJob_ofOutcome]
      cases WriteTarget.of app.connections ctx o with
      | error _ => exact hrefl _
      | ok t => exact (Job.atomicIf_changes hrefl t.transactional (h t) w).everywhere hrefl hreg database

end Application

end RecordMapper
