import RecordMapper.Proofs.Save.Forbidden
import RecordMapper.Proofs.Save.Listed
import RecordMapper.Proofs.Steps.Within
import RecordMapper.Proofs.Store.Unlisted

/-!
# Replacing — what a save leaves of the other rows of a relation

The objects that are given for the other side of a foreign key are saved
one by one, as parts of the run, and the related rows that are none of
those saved are deleted. So afterwards the rows that refer to the owner
are among the saved ones (`Replaced`), and they stay so while the other
relations are written, if these add no rows of the model.

A list without objects counts as one of keys, though. Then the rows that
are not listed are released, and only if the foreign key may be null: an
empty list leaves all rows of an owner behind a key that may not.
-/

namespace RecordMapper

open Store World

namespace Save

variable {decls : List ModelDecl} {app : Application} {t : WriteTarget} {s nested : Schema} {o : SaveOptions}
  {data : Record} {name : String} {v pk : Value} {f : SchemaField} {related : Model} {field : String} {nullable : Bool}
  {levels : Nat} {w w₁ : World} {α β : Type}

/-! ## Parts of saves -/

section Parts

variable {save : Record → Job Value} {items : List Record} {j : Job α}

/-- Where failures are not passed over, every item is saved under a key. -/
theorem yields_each (hskip : o.skipFailed = false) {keys : List (Option Value)}
    (h : (w.runJob (each save t o items)).1 = .ok keys) :
    List.Forall₂ (fun item k => w.Yields (each save t o items) (save item) k) items (keys.filterMap id) := by
  have hplain : each save t o items = items.mapM fun item => save item >>= fun k => pure (some k) := by
    unfold each
    rw [hskip]
    rfl
  rw [hplain] at h ⊢
  have hall := Yields.mapM h
  clear h hplain
  generalize (items.mapM fun item => save item >>= fun k => (pure (some k) : Job (Option Value))) = j at hall ⊢
  induction hall with
  | nil => exact .nil
  | cons hyields _ ih =>
      obtain ⟨k, hk, _, hsome⟩ := hyields.of_bind
      cases hsome
      exact .cons hk ih

/-- Where no failure is passed over, a relation is written as it is. -/
theorem relation_runs (hforgive : o.forgiveRelations = .none) {write : Job Unit}
    (h : (w.runJob (relation t o f write)).1 = .ok ⟨⟩) :
    w.Runs (relation t o f write) w write ∧ (w.runJob write).1 = .ok ⟨⟩ ∧
      (w.runJob (relation t o f write)).2 = (w.runJob write).2 := by
  unfold relation at h ⊢
  simp only [hforgive, Forgiveness.skipsAny, Bool.and_false] at h ⊢
  obtain ⟨hruns, ⟨⟩, hok, hafter⟩ := Runs.attempted (fun _ _ h => by cases h) h
  exact ⟨hruns, hok, (congrArg Prod.snd hafter :)⟩

/-- A job whose failures a context maps succeeds as it is. -/
theorem mapped_runs {ctx : Context} {a : α} (h : (w.runJob (mapped ctx j)).1 = .ok a) :
    w.Runs (mapped ctx j) w j ∧ (w.runJob j).1 = .ok a ∧ (w.runJob (mapped ctx j)).2 = (w.runJob j).2 := by
  obtain ⟨hruns, b, hok, hafter⟩ := Runs.attempted (fun _ _ h => by cases h) h
  have hafter : w.runJob (mapped ctx j) = (.ok b, (w.runJob j).2) := hafter
  rw [hafter] at h ⊢
  exact ⟨hruns, hok.trans h, rfl⟩

end Parts

/-! ## Rows that are among the saved ones -/

/-- A job saves some items as parts of its run, each of which yields a key, and leaves no row of a model that refers to
an owner but under one of these keys. -/
def Replaced (w : World) (j : Job α) (database : String) (related : Model) (field : String) (pk : Value)
    (save : Record → Job Value) (items : List Record) : Prop :=
  ∃ saved, List.Forall₂ (fun item k => w.Yields j (save item) k) items saved ∧
    RefersOnly w.registry ((w.runJob j).2.database database).store related field pk saved

section Replaced

variable {database : String} {save : Record → Job Value} {items : List Record} {j : Job α} {k : Job β}

/-- What a part of a job has replaced stays so if no more rows come to refer to the owner. -/
theorem Replaced.within (h : Replaced w₁ k database related field pk save items) (hruns : w.Runs j w₁ k)
    (hrest : AddsNoReferrer w.registry related field pk ((w₁.runJob k).2.database database).store
      ((w.runJob j).2.database database).store) :
    Replaced w j database related field pk save items := by
  obtain ⟨saved, hsaved, honly⟩ := h
  rw [hruns.registry] at honly
  exact ⟨saved, hsaved.imp fun _ _ hyields => .of_runs hruns hyields, honly.of_addsNone hrest⟩

/-- Of jobs one after another those that follow add no row. -/
theorem Replaced.forM {job : β → Job PUnit} {front back : List β} {x : β}
    (hx : ∀ w₁ : World, w₁.registry = w.registry → (w₁.runJob (job x)).1 = .ok ⟨⟩ →
      Replaced w₁ (job x) database related field pk save items)
    (hback : ∀ e ∈ back, Job.Keeps (Changes database w.registry (AddsNoReferrer w.registry related field pk)) (job e))
    (h : (w.runJob ((front ++ x :: back).forM job)).1 = .ok ⟨⟩) :
    Replaced w ((front ++ x :: back).forM job) database related field pk save items := by
  obtain ⟨w₁, hruns, hok, hrest⟩ := Runs.forM h
  refine (hx w₁ hruns.registry hok).within hruns ?_
  have hkeeps : Job.Keeps (Changes database w.registry (AddsNoReferrer w.registry related field pk)) (back.forM job) :=
    .forM (Job.composes_changes .refl .trans) hback
  rw [hrest]
  exact (hkeeps _).store ((registry_run _ w₁).trans hruns.registry)

end Replaced

/-! ## Other entries -/

/-- A relation that is written neither in rows of a model nor in a foreign key of the model. -/
def WritesApart (reg : Registry) (related : Model) (field : String) : RelationWrite → Prop
  | .manyToMany through _ _ => related.name ∉ (reg.lineage through).map Model.name
  | .reverse related' field' _ => related' ≠ related ∨ field' ≠ field

/-- No other entry of some data has rows of a model refer to an owner by a foreign key: their relations are written apart
from it, and their objects write no rows of the model. Whatever they delete. -/
structure AddsAlone (app : Application) (s : Schema) (data : Record) (name : String) (related : Model) (field : String) :
    Prop where
  relations : ∀ e w, GivenBeside s data name e → e.1.relationWrite = some w → WritesApart app.registry related field w
  objects : ∀ e n item m, GivenBeside s data name e → app.nested? s e.1 = .ok (some n) → item ∈ e.2.objects →
    Touches app n item m → related.name ∉ (app.registry.lineage m).map Model.name

section Columns

variable {c : Field} (hread : app.registry.Readable) (hb : Registry.build decls = .ok app.registry)
  (hrelated : related ∈ app.registry.models) (hc : c ∈ related.own) (hfk : c.isForeignKey)

include hb hrelated hc hfk

section Others

/-- Statements that write in other tables add no row. -/
theorem writes_addsNoReferrer {m : Model} (h : related.name ∉ (app.registry.lineage m).map Model.name) :
    Call.Writes (Call.Changing app.registry (AddsNoReferrer app.registry related c.name pk)) m := by
  have hbeside {st st' : Store} (hst : Beside related st st') : AddsNoReferrer app.registry related c.name pk st st' :=
    .of_beside (Registry.rooted_of_build hb) hrelated hc hfk hst
  exact {
    insert := fun _ => Call.changing_insert fun hinsert => hbeside (beside_insert h hinsert)
    insertChild := fun _ => Call.changing_insertChild fun hinsert => hbeside (beside_insertChild h hinsert)
    update := fun _ _ hqs => Call.changing_update fun hupdate => hbeside (beside_update h hqs hupdate) }

/-- Relations that are written apart from a foreign key add no row. -/
theorem writable_addsNoReferrer {m : Model} {x : RelationWrite} (hkept : x.Kept app.registry m)
    (h : WritesApart app.registry related c.name x) :
    x.Writable (Call.Changing app.registry (AddsNoReferrer app.registry related c.name pk)) := by
  have hr := Registry.rooted_of_build hb
  cases hkept with
  | manyToMany => exact (writes_addsNoReferrer hb hrelated hc hfk h).insert
  | @reverse related' c' hrelated' hc' hfk' _ =>
      refine fun qs v hqs => Call.changing_update fun hupdate => ?_
      subst hqs
      by_cases hsame : qs.model = related
      · refine .of_update hr hrelated hc hfk hrelated' (fun e he => ?_) hupdate
        rw [List.mem_singleton.mp he]
        exact h.resolve_left fun hne => hne hsame
      · refine .of_beside hr hrelated hc hfk <|
          beside_update_of_owner hr hrelated hrelated' (Ne.symm hsame) (fun e he => ?_) hupdate
        rw [List.mem_singleton.mp he]
        exact columnOwner?_of_own hr hrelated' hc' (isConcrete_of_isForeignKey hfk')

variable (hs : s.Declared app.registry) (halone : AddsAlone app s data name related c.name)
include hread hs halone

/-- Writing what another entry gives adds no row. -/
theorem entry_addsNoReferrer {e : SchemaField × Value} (he : GivenBeside s data name e) (levels : Nat) (created : Bool) :
    Job.Keeps (Changes t.database app.registry (AddsNoReferrer app.registry related c.name pk)) (relation t o e.1
      (match e.1.relationWrite with
        | some w => w.assign t.database pk (e.1.relationKeys e.2) created
        | none => return ())) ∧
    (e.2.holdsObjects → Job.Keeps (Changes t.database app.registry (AddsNoReferrer app.registry related c.name pk))
      (relation t o e.1 (objects app t (rowWithin app t levels) s o pk created e.1 e.2))) := by
  have hlooks : Call.Looks (Call.Changing app.registry (AddsNoReferrer app.registry related c.name pk)) :=
    ⟨Call.changing_fetch, Call.changing_count⟩
  have hdeletes (qs : Queryset) : (Call.delete qs).Changing app.registry (AddsNoReferrer app.registry related c.name pk) :=
    Call.changing_delete fun hdelete => .of_shrinks (Registry.rooted_of_build hb) hrelated hc hfk (delete_shrinks hdelete)
  have hwrites (x : RelationWrite) (hx : e.1.relationWrite = some x) :
      x.Writable (Call.Changing app.registry (AddsNoReferrer app.registry related c.name pk)) := by
    have ⟨_, _, hother⟩ := he
    obtain ⟨level, _, hkept⟩ := hs.exists_kept hread hb (Schema.mem_fieldList_of_field? hother) hx
    exact writable_addsNoReferrer hb hrelated hc hfk hkept (halone.relations e x he hx)
  refine entry_changes .refl .trans ⟨fun x hx owner created => ?_, fun hholds owner created => ?_⟩ pk created
  · exact RelationWrite.assign_made hlooks (hwrites x hx) (fun _ _ _ _ qs _ => hdeletes qs) owner _ created
  · refine objects_made hlooks hholds hwrites (fun qs _ => hdeletes qs) (fun n hn item hitem o extra => ?_) o owner created
    exact rowWithin_made levels
      { looks := hlooks
        writes := fun m hm => writes_addsNoReferrer hb hrelated hc hfk (halone.objects e n item m he hn hitem hm)
        deletes := fun qs _ => hdeletes qs } o extra

end Others

/-! ## The relation itself -/

section Relation

variable {database : String}
include hread

/-- Once the objects are saved, no other row is left to the owner. -/
theorem complete_ends (saved : List Value) {times : Instant → Prop} {st : Store} :
    Job.Ends database app.registry times st
      (RelationWrite.complete database pk saved false (.reverse related c.name nullable))
      fun _ st' => RefersOnly app.registry st' related c.name pk saved :=
  .bind <| .delete rfl fun _ _ hdelete => .pure (refersOnly_of_delete hread hb hrelated hc hfk hdelete)

/-- Without objects the rows of an owner are released. -/
theorem assign_ends_released (hpk : pk.isNull = false) {times : Instant → Prop} {st : Store} :
    Job.Ends database app.registry times st (RelationWrite.assign database pk [] false (.reverse related c.name true))
      fun _ st' => RefersOnly app.registry st' related c.name pk [] :=
  .bind <| .update rfl fun _ _ hupdate => .pure (refersOnly_of_update hread hb hrelated hc hfk hpk hupdate)

variable (hwrite : f.relationWrite = some (.reverse related c.name nullable))
include hwrite

/-- Objects are saved one by one, and no other row is left to the owner. -/
theorem objects_replaced (hnested : app.nested? s f = .ok (some nested)) (hskip : o.skipFailed = false)
    (hreg : w.registry = app.registry) {save : Schema → SaveOptions → Record → Record → Job Value}
    (h : (w.runJob (objects app t save s o pk false f v)).1 = .ok ⟨⟩) :
    Replaced w (objects app t save s o pk false f v) t.database related c.name pk
      (fun item => save nested o.nested item [(c.name, pk)]) v.objects := by
  unfold objects at h ⊢
  rw [hwrite] at h ⊢
  obtain ⟨found, hfound, h⟩ := runJob_bind_eq_ok h
  obtain rfl : found = some nested := Except.ok.inj (hfound.symm.trans hnested)
  obtain ⟨keys, hkeys, hcomplete⟩ := runJob_bind_eq_ok h
  refine ⟨keys.filterMap id, (yields_each hskip hkeys).imp fun _ _ hyields => ?_, ?_⟩
  · exact .of_runs ((Runs.second hfound _).trans (.first _ _ _)) hyields
  · rw [runJob_bind_ok hfound, runJob_bind_ok hkeys, hreg]
    refine complete_ends hread hb hrelated hc hfk _ _ ?_ (fun _ _ => trivial) rfl _ hcomplete
    exact (registry_run _ _).trans ((registry_run _ w).trans hreg)

variable (hforgive : o.forgiveRelations = .none)
include hforgive

/-- Writing a relation that is given no keys releases the rows of an owner that stood before. -/
theorem relation_released (hnull : nullable = true) (hpk : pk.isNull = false) (hkeys : f.relationKeys v = [])
    (hreg : w.registry = app.registry) {save : Record → Job Value}
    (h : (w.runJob (relation t o f (match f.relationWrite with
      | some w => w.assign t.database pk (f.relationKeys v) false
      | none => return ()))).1 = .ok ⟨⟩) :
    Replaced w (relation t o f (match f.relationWrite with
      | some w => w.assign t.database pk (f.relationKeys v) false
      | none => return ())) t.database related c.name pk save [] := by
  rw [hwrite, hkeys, hnull] at h ⊢
  obtain ⟨-, hok, hafter⟩ := relation_runs hforgive h
  refine ⟨[], .nil, ?_⟩
  rw [hafter, hreg]
  exact assign_ends_released hread hb hrelated hc hfk hpk _ hreg (fun _ _ => trivial) rfl _ hok

/-- Writing a relation that is given objects replaces the rows of an owner that stood before. -/
theorem relation_replaced (hnested : app.nested? s f = .ok (some nested)) {items : List Record}
    (hitems : v.objects = items) (hskip : o.skipFailed = false) (hreg : w.registry = app.registry)
    {save : Schema → SaveOptions → Record → Record → Job Value}
    (h : (w.runJob (relation t o f (objects app t save s o pk false f v))).1 = .ok ⟨⟩) :
    Replaced w (relation t o f (objects app t save s o pk false f v)) t.database related c.name pk
      (fun item => save nested o.nested item [(c.name, pk)]) items := by
  obtain ⟨hruns, hok, hafter⟩ := relation_runs hforgive h
  subst hitems
  refine (objects_replaced hread hb hrelated hc hfk hwrite hnested hskip hreg hok).within hruns ?_
  rw [hafter]
  exact .refl _

end Relation

/-! ## The relations of a row -/

section Relations

variable (hs : s.Declared app.registry) (hfield : s.field? name = some f) (htakes : s.takes .update name)
  (hwrite : f.relationWrite = some (.reverse related c.name nullable)) (hnested : app.nested? s f = .ok (some nested))
  (hnames : (data.map Prod.fst).Nodup) {listed : List Record} (hv : (name, .list (listed.map .map)) ∈ data)
  (hclears : listed ≠ [] ∨ nullable = true) (halone : AddsAlone app s data name related c.name)
  (hforgive : o.forgiveRelations = .none) (hskip : o.skipFailed = false)
include hread hs hfield htakes hwrite hnested hnames hv hclears halone hforgive hskip

/-- The relations of a row that stood before replace the rows of one of them. -/
theorem relations_replaced (hpk : pk.isNull = false) (hreg : w.registry = app.registry)
    (h : (w.runJob (relations app t (rowWithin app t levels) s o ⟨pk, false, SaveParts.split s .update data⟩)).1 =
      .ok ⟨⟩) :
    Replaced w (relations app t (rowWithin app t levels) s o ⟨pk, false, SaveParts.split s .update data⟩) t.database
      related c.name pk (fun item => rowWithin app t levels nested o.nested item [(c.name, pk)]) listed := by
  rw [Schema.takes, hfield, Option.any_some, Bool.and_eq_true, Bool.not_eq_true'] at htakes
  obtain ⟨front, back, hkeys, hobjects, hkeysBeside, hobjectsBeside⟩ := exists_split_around s .update hnames hv
  obtain ⟨hkeysHere, hobjectsHere⟩ := split_relation (v := .list (listed.map .map)) hfield htakes.1 htakes.2
    (by rw [hwrite]; rfl) (nested_isSome hnested)
  rw [hkeysHere] at hkeys
  rw [hobjectsHere] at hobjects
  unfold relations at h ⊢
  rw [hkeys, hobjects] at h ⊢
  obtain ⟨⟨⟩, hfirst, hsecond⟩ := runJob_bind_eq_ok h
  have hkeep : ∀ e, e ∈ front.objects ∨ e ∈ back.objects →
      Job.Keeps (Changes t.database app.registry (AddsNoReferrer app.registry related c.name pk))
        (relation t o e.1 (objects app t (rowWithin app t levels) s o pk false e.1 e.2)) := by
    intro e he
    obtain ⟨hholds, hbeside⟩ := hobjectsBeside e he
    exact (entry_addsNoReferrer hread hb hrelated hc hfk hs halone hbeside levels false).2 hholds
  have hafter (j : Job PUnit) : (w.runJob j).2.registry = app.registry := (registry_run _ w).trans hreg
  rcases listed with _ | ⟨item, rest⟩
  · -- Without objects the entry counts as one of keys, of which it has none.
    have hnull : nullable = true := hclears.resolve_left fun hne => hne rfl
    refine (Replaced.forM (fun w₁ hreg₁ hok => ?_) (fun e he => ?_) hfirst).within (.first _ _ _) ?_
    · exact relation_released hread hb hrelated hc hfk hwrite hforgive hnull hpk rfl (hreg₁.trans hreg) hok
    · rw [hreg]
      exact (entry_addsNoReferrer hread hb hrelated hc hfk hs halone (hkeysBeside e (.inr he)) levels false).1
    · rw [runJob_bind_ok hfirst, hreg]
      refine (Job.Keeps.forM (Job.composes_changes .refl .trans) (fun e he => ?_) _).store (hafter _)
      exact hkeep e (List.mem_append.mp he)
  · refine (Replaced.forM (fun w₁ hreg₁ hok => ?_) (fun e he => ?_) hsecond).within (.second hfirst _) ?_
    · have hreg₁ : w₁.registry = app.registry := hreg₁.trans (hafter _)
      exact relation_replaced hread hb hrelated hc hfk hwrite hforgive hnested (Value.objects_maps _) hskip hreg₁ hok
    · rw [hafter]
      exact hkeep e (.inr he)
    · rw [runJob_bind_ok hfirst]
      exact .refl _

variable (hkey : s.keyOf? data = some pk) (hcreate : o.mustCreate = false) (hrelations : o.withRelations)
include hkey hcreate hrelations

/-- Saving a row that stands replaces the rows of one of its relations. -/
theorem rowWithin_replaced (hreg : w.registry = app.registry)
    (hfound : ∃ k ∈ (w.database t.database).store.keys s.model, (Lookup.oneOf [pk]).holds k) {extra : Record}
    {saved : Value} (h : (w.runJob (rowWithin app t (levels + 1) s o data extra)).1 = .ok saved) :
    Replaced w (rowWithin app t (levels + 1) s o data extra) t.database related c.name pk
      (fun item => rowWithin app t levels nested o.nested item [(c.name, pk)]) listed := by
  have hpk : pk.isNull = false := by simpa using (Option.filter_eq_some_iff.mp hkey).2
  rw [rowWithin] at h ⊢
  obtain ⟨row, hrow, h⟩ := runJob_bind_eq_ok h
  have hafter : (w.runJob (writeRow app t s o data extra)).2.registry = app.registry := (registry_run _ w).trans hreg
  obtain rfl : row = ⟨pk, false, SaveParts.split s .update data⟩ := by
    refine writeRow_ends_of_found hkey hcreate (fun pks hpks => ?_) w hreg (fun _ _ => trivial) rfl row hrow
    rw [target, select_listed hread hb hs.mem_models] at hpks
    obtain ⟨k, hk, hholds⟩ := hfound
    exact List.ne_nil_of_mem (Except.ok.inj hpks ▸ List.mem_filter.mpr ⟨hk, hholds⟩)
  have hruns := Runs.second hrow fun row => do
    if o.withRelations then relations app t (rowWithin app t levels) s o row
    return row.pk
  have hsame := runJob_bind_ok hrow fun row => do
    if o.withRelations then relations app t (rowWithin app t levels) s o row
    return row.pk
  rw [if_pos hrelations] at h hruns hsame
  obtain ⟨⟨⟩, hwritten, _⟩ := runJob_bind_eq_ok h
  refine (relations_replaced hread hb hrelated hc hfk hs hfield htakes hwrite hnested hnames hv hclears halone hforgive hskip
    hpk hafter hwritten).within (hruns.trans (.first _ _ _)) ?_
  rw [hsame, runJob_bind_ok hwritten]
  exact .refl _

end Relations

end Columns

end Save

namespace Application

variable {decls : List ModelDecl} {app : Application} {cat : Catalog} {t : WriteTarget} {s nested : Schema}
  {ctx : Context} {o : SaveOptions} {data : Record} {name : String} {pk saved : Value} {f : SchemaField} {related : Model}
  {field : String} {nullable : Bool} {listed : List Record} {w : World}

/-- A save that succeeds saves the row of its data, on the store before it and with the store after it. -/
theorem save_runs (ht : WriteTarget.of app.connections ctx o = .ok t)
    (h : (w.runJob (app.save s data ctx o)).1 = .ok saved) :
    ∃ w₁, w.Runs (app.save s data ctx o) w₁ (Save.row app t s o data) ∧
      (w₁.runJob (Save.row app t s o data)).1 = .ok saved ∧
      (w₁.database t.database).store = (w.database t.database).store ∧
      ((w.runJob (app.save s data ctx o)).2.database t.database).store =
        ((w₁.runJob (Save.row app t s o data)).2.database t.database).store := by
  obtain ⟨hmapped, hok, hafter⟩ := Save.mapped_runs h
  obtain ⟨⟨⟩, hcheck, hok⟩ := runJob_bind_eq_ok hok
  obtain ⟨t', ht', hok⟩ := runJob_bind_eq_ok hok
  obtain rfl : t = t' := Except.ok.inj (ht.symm.trans ht')
  obtain ⟨w₁, hruns, hrow, hbefore, hstore⟩ := Runs.atomicIf t.transactional (Save.rowWithin_confined _ s o data []) hok
  refine ⟨w₁, hmapped.trans ((Runs.second hcheck _).trans ((Runs.second ht' _).trans hruns)), hrow, hbefore, ?_⟩
  rw [save, hafter, runJob_bind_ok hcheck, runJob_bind_ok ht']
  exact hstore

/-- A save that updates a row and is given objects for the other side of a foreign key leaves no related row to the
owner but those that it has saved for them. A list without objects does so only if the foreign key may be null. Failures
are not passed over, and no other entry of the data adds related rows. -/
theorem save_replaces_objects (hb : Registry.build decls = .ok w.registry) (hread : w.registry.Readable)
    (hs : s.Declared w.registry) (hfield : s.field? name = some f) (htakes : s.takes .update name)
    (hwrite : f.relationWrite = some (.reverse related field nullable))
    (hnested : (w.application cat).nested? s f = .ok (some nested)) (hnames : (data.map Prod.fst).Nodup)
    (hv : (name, .list (listed.map .map)) ∈ data) (hclears : listed ≠ [] ∨ nullable = true)
    (halone : Save.AddsAlone (w.application cat) s data name related field) (hkey : s.keyOf? data = some pk)
    (hcreate : o.mustCreate = false) (hrelations : o.withRelations) (hforgive : o.forgiveRelations = .none)
    (hskip : o.skipFailed = false) (ht : WriteTarget.of w.connections ctx o = .ok t)
    (hfound : ∃ k ∈ (w.database t.database).store.keys s.model, (Lookup.oneOf [pk]).holds k)
    (h : (w.runJob ((w.application cat).save s data ctx o)).1 = .ok saved) :
    Save.Replaced w ((w.application cat).save s data ctx o) t.database related field pk
      (fun item =>
        Save.rowWithin (w.application cat) t (Value.entriesDepth data) nested o.nested item [(field, pk)]) listed := by
  have ht : WriteTarget.of (w.application cat).connections ctx o = .ok t := ht
  obtain ⟨w₁, hruns, hok, hbefore, hafter⟩ := save_runs ht h
  obtain ⟨level, _, hkept⟩ := hs.exists_kept hread hb (Schema.mem_fieldList_of_field? hfield) hwrite
  cases hkept with
  | reverse hrelated hc hfk _ =>
      refine (Save.rowWithin_replaced hread hb hrelated hc hfk hs hfield htakes hwrite hnested hnames hv hclears halone
        hforgive hskip hkey hcreate hrelations hruns.registry (hbefore ▸ hfound) hok).within hruns ?_
      rw [hafter]
      exact .refl _

end Application

/-! ## Books that are replaced, and books that stay -/

namespace Library

open Registry (built modelOf)

/-- An author saved with the objects of books. -/
def saving (books : List Record) : Job Value := app.save authorSchema (authorData 1 (books.map .map)) {} {}

/-- An object saved as a book of the author. -/
def savingBook (levels : Nat) (item : Record) : Job Value :=
  Save.rowWithin app ⟨"default", true⟩ levels bookSchema ({} : SaveOptions).nested item [("author", .int 1)]

theorem readable_decls : (built decls).Readable where
  distinct := by decide
  undotted := by decide
  reserved := by decide
  keys := by decide
  sides := Registry.sidesAreDeclared_of_forward (by decide)

theorem declared_authorSchema : authorSchema.Declared (built decls) := by
  have hbuild : Schema.build (built decls) catalog "Author" (modelOf (built decls) "author")
      [{ name := "id" }, { name := "books", nested := some (.schema 1) }] = .ok authorSchema := rfl
  exact .built (by decide +kernel) hbuild

/-- Beside the books of an author only the key is given. -/
theorem addsAlone_books (books : List Value) :
    Save.AddsAlone app authorSchema (authorData 1 books) "books" book "author" := by
  have hkey : ∀ e : SchemaField × Value, Save.GivenBeside authorSchema (authorData 1 books) "books" e →
      e.1.relationWrite = none ∧ e.2.objects = [] := by
    rintro ⟨g, u⟩ ⟨other, hmem, hfield⟩
    obtain ⟨rfl, rfl⟩ := Prod.mk.inj (List.mem_singleton.mp hmem)
    have hnone : (authorSchema.field? "id").bind (·.relationWrite) = none := rfl
    rw [hfield, Option.bind_some] at hnone
    exact ⟨hnone, rfl⟩
  constructor
  case relations =>
    intro e w he hw
    rw [(hkey e he).1] at hw
    cases hw
  case objects =>
    intro e n item m he _ hitem
    rw [(hkey e he).2] at hitem
    cases hitem

/-- A save of an author with one of two books leaves that one. -/
theorem save_replaces_books :
    (authorSchema.field? "books" = some booksField ∧
      booksField.relationWrite = some (.reverse book "author" false) ∧
      app.nested? authorSchema booksField = .ok (some bookSchema) ∧
      (world.runJob (saving [bookData 1 (.text "A2")])).1.toOption = some (.int 1)) ∧
    Save.Replaced world (saving [bookData 1 (.text "A2")]) "default" book "author" (.int 1) (savingBook 1)
      [bookData 1 (.text "A2")] := by
  have hfield : authorSchema.field? "books" = some booksField := rfl
  have hwrite : booksField.relationWrite = some (.reverse book "author" false) := rfl
  have hnested : app.nested? authorSchema booksField = .ok (some bookSchema) := rfl
  have hok : (world.runJob (saving [bookData 1 (.text "A2")])).1.toOption = some (.int 1) := by decide +kernel
  refine ⟨⟨hfield, hwrite, hnested, hok⟩, ?_⟩
  exact Application.save_replaces_objects (show Registry.build decls = .ok world.registry from rfl) readable_decls
    declared_authorSchema hfield (by decide) hwrite hnested (by decide) (.tail _ (.head _)) (.inl nofun)
    (addsAlone_books _) rfl rfl rfl rfl rfl rfl ⟨.int 1, by decide +kernel, by decide +kernel⟩
    (Outcome.toOption_eq_some.mp hok)

/-- An author saved with an empty list of books keeps them, as they cannot be released. -/
theorem empty_list_keeps_books :
    (authorSchema.field? "books" = some booksField ∧ authorSchema.takes .update "books" ∧
      booksField.relationWrite = some (.reverse book "author" false) ∧
      app.nested? authorSchema booksField = .ok (some bookSchema)) ∧
    (world.runJob (saving [])).1.toOption = some (.int 1) ∧
    (.int 1 ∈ keys (world.runJob (saving [])).2 ∧ authorOf (world.runJob (saving [])).2 1 = .int 1) ∧
    ¬Save.Replaced world (saving []) "default" book "author" (.int 1) (savingBook 0) [] := by
  have hbook : .int 1 ∈ keys (world.runJob (saving [])).2 ∧ authorOf (world.runJob (saving [])).2 1 = .int 1 := by
    decide +kernel
  refine ⟨⟨rfl, by decide +kernel, rfl, rfl⟩, by decide +kernel, hbook, ?_⟩
  rintro ⟨saved, hsaved, honly⟩
  cases hsaved
  have howned : (Lookup.exact (.int 1)).holds (authorOf (world.runJob (saving [])).2 1) = true := by
    rw [hbook.2]
    decide +kernel
  exact absurd (honly (.int 1) hbook.1 howned) (by decide)

end Library

end RecordMapper
