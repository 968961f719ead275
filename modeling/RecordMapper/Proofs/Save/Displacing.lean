import RecordMapper.Proofs.Save.Replacing
import RecordMapper.Proofs.Store.Occupied

/-!
# Displacing — objects for places that are taken

The objects of a relation are saved before the related rows that are not
among them are deleted. Behind a unique foreign key, as that of a one-to-one
relation, an object without a key can therefore not take the place of a row
that refers to the owner: the insert of its row is refused while the old row
stands, and the save fails (`save_of_occupied`). If such failures are passed
over, the old row stays, or is deleted without another one in its place.
-/

namespace RecordMapper

open Store World

namespace Save

variable {decls : List ModelDecl} {app : Application} {t : WriteTarget} {s nested : Schema} {o : SaveOptions}
  {data object : Record} {name : String} {v pk : Value} {f : SchemaField} {related : Model} {c : Field} {field : String}
  {nullable : Bool} {levels : Nat} {times : Instant → Prop} {st st' : Store} {α : Type}

/-! ## The row of the object -/

/-- The row of an object could be inserted for some other owner. The foreign key is not the primary key of the row, and
no other level of its inheritance has a column of that name. -/
structure FitsElsewhere (reg : Registry) (times : Instant → Prop) (nested : Schema) (object : Record) (related : Model)
    (field : String) (st : Store) : Prop where
  beside : field ≠ related.pkName
  alone : ∀ level ∈ reg.lineage nested.model, ∀ g ∈ level.own, g.name = field → level = related
  inserted : ∀ now at', times now → times at' → ∃ free r, insert reg at' st nested.model
    ((SaveParts.split nested .create object).createColumns nested now none [(field, free)]) = .ok r

/-- A failure for a taken place: that of the unique constraint, if nothing else speaks against the row. -/
def TellsTaken (reg : Registry) (times : Instant → Prop) (nested : Schema) (object : Record) (related : Model)
    (field : String) (st : Store) (e : Failure) : Prop :=
  FitsElsewhere reg times nested object related field st → e = .uniqueViolated related.name field

/-- A further column of a new row has the value that it is given. -/
theorem get?_createColumns_further (s : Schema) (now : Instant) (parts : SaveParts) (key : Option Value) (field : String)
    (v : Value) : (parts.createColumns s now key [(field, v)]).get? field = some v := by
  refine SaveParts.lookup_createColumns_of_given ?_
  exact Record.lookup_extend_of_mem _ (fun e he _ => by rw [List.mem_singleton.mp he]) ⟨_, List.mem_singleton.mpr rfl, rfl⟩

/-- The other columns of a new row do not depend on it. -/
theorem sameBeside_createColumns (s : Schema) (now : Instant) (parts : SaveParts) (key : Option Value) (field : String)
    (v v' : Value) :
    (parts.createColumns s now key [(field, v)]).SameBeside field (parts.createColumns s now key [(field, v')]) := by
  refine List.foldl_rel (r := Record.SameBeside field) (Record.sameBeside_insert _ field v v') fun f _ out out' hsame => ?_
  split
  · rename_i column w _ _
    rw [Record.has_eq_isSome, Record.has_eq_isSome, (hsame column).1]
    split
    · exact hsame
    · exact hsame.insert column w
  · exact hsame

section Taken

variable {reg : Registry} (hread : reg.Readable) (hb : Registry.build decls = .ok reg) (hi : Inherits reg st)
  (hm : nested.model ∈ reg.models) (hl : related ∈ reg.lineage nested.model) (hc : c ∈ related.own)
  (hfk : c.isForeignKey) (hunique : c.unique) (hpk : pk.isNull = false)
  (hoccupied : Occupied reg st related c.name pk) (hobject : nested.keyOf? object = none)
include hread hb hi hm hl hc hfk hunique hpk hoccupied

/-- No row is created for an owner whose place is taken. -/
theorem createRow_of_occupied :
    Job.Leads t.database reg times st (createRow t nested none object [(c.name, pk)]) fun r st' =>
      st' = st ∧ ∃ e, r = .error e ∧ TellsTaken reg times nested object related c.name st e := by
  refine .bind <| .clock fun now hnow => .bind ?_
  have hgiven := get?_createColumns_further nested now (SaveParts.split nested .create object) none c.name pk
  refine .insert (fun at' hat new st' hinsert => ?_) fun at' hat e hinsert => ⟨rfl, e, rfl, fun hfits => ?_⟩
  · obtain ⟨e, he⟩ := insert_of_occupied hread hb hi hm hl hc hfk hunique hpk hoccupied hgiven at'
    rw [he] at hinsert
    cases hinsert
  · obtain ⟨free, r, hfree⟩ := hfits.inserted now at' hnow hat
    have hviolates := insert_violates_unique hread hb hi hm hl hc hfk hunique hpk hoccupied hgiven hfits.beside
      hfits.alone (sameBeside_createColumns _ _ _ _ _ pk free) hfree
    exact Except.error.inj (hinsert.symm.trans hviolates)

include hobject

/-- No object without a key is saved for an owner whose place is taken. -/
theorem rowWithin_of_occupied (levels : Nat) :
    Job.Leads t.database reg times st (rowWithin app t (levels + 1) nested o.nested object [(c.name, pk)]) fun r st' =>
      st' = st ∧ ∃ e, r = .error e ∧ TellsTaken reg times nested object related c.name st e := by
  rw [rowWithin]
  refine .bind ?_
  have hrow : writeRow app t nested o.nested object [(c.name, pk)] = createRow t nested none object [(c.name, pk)] := by
    simp only [writeRow, hobject]
    rfl
  rw [hrow]
  refine (createRow_of_occupied hread hb hi hm hl hc hfk hunique hpk hoccupied).imp fun r st' h => ?_
  obtain ⟨rfl, e, rfl, htells⟩ := h
  exact ⟨rfl, e, rfl, htells⟩

/-- If failed objects are passed over, the object has no key. -/
theorem each_of_occupied (levels : Nat) :
    Job.Leads t.database reg times st
      (each (fun item => rowWithin app t (levels + 1) nested o.nested item [(c.name, pk)]) t o.nested [object])
      fun r st' => st' = st ∧ (r = .ok [none] ∧ o.skipFailed = true ∨
        o.skipFailed = false ∧ ∃ e, r = .error e ∧ TellsTaken reg times nested object related c.name st e) := by
  have hrow : Job.Leads t.database reg times st (rowWithin app t (levels + 1) nested o.nested object [(c.name, pk)]) _ :=
    rowWithin_of_occupied hread hb hi hm hl hc hfk hunique hpk hoccupied hobject levels
  simp only [each, List.mapM_cons, List.mapM_nil]
  refine .bind ?_
  have hsame : o.nested.skipFailed = o.skipFailed := rfl
  rw [hsame]
  cases o.skipFailed with
  | false =>
      refine .bind <| hrow.imp fun r st' h => ?_
      obtain ⟨rfl, e, rfl, htells⟩ := h
      exact ⟨rfl, .inr ⟨rfl, e, rfl, htells⟩⟩
  | true =>
      refine .bind <| .attempt <| .atomicIf _ (rowWithin_confined _ _ _ _ _) (hrow.imp fun r st' h => ?_)
      obtain ⟨rfl, e, rfl, _⟩ := h
      exact ⟨.pure (.bind <| .pure <| .pure ⟨rfl, .inl ⟨rfl, rfl⟩⟩),
        fun _ _ => .pure (.bind <| .pure <| .pure ⟨rfl, .inl ⟨rfl, rfl⟩⟩)⟩

variable (hwrite : f.relationWrite = some (.reverse related c.name nullable))
  (hnested : app.nested? s f = .ok (some nested)) (hitems : v.objects = [object])
include hwrite hnested hitems

/-- The objects of a relation come to nothing but deletes where the place of the owner is taken. -/
theorem objects_of_occupied (levels : Nat) :
    Job.Leads t.database reg times st (objects app t (rowWithin app t (levels + 1)) s o pk false f v) fun r st' =>
      Shrinks st st' ∧ (o.skipFailed = false →
        st' = st ∧ ∃ e, r = .error e ∧ TellsTaken reg times nested object related c.name st e) := by
  refine .bind <| .ofOutcome ?_
  simp only [hnested, hwrite, hitems]
  refine .bind <| (each_of_occupied hread hb hi hm hl hc hfk hunique hpk hoccupied hobject levels).imp fun r st' h => ?_
  obtain ⟨rfl, ⟨rfl, hskip⟩ | ⟨_, e, rfl, htells⟩⟩ := h
  · -- The object was passed over, so no row is left to the owner.
    have hnot : o.skipFailed ≠ false := fun hfalse => Bool.false_ne_true (hfalse.symm.trans hskip)
    exact .bind <| .delete rfl (fun _ _ hdelete => .pure ⟨delete_shrinks hdelete, fun h => absurd h hnot⟩)
      fun _ _ => ⟨.refl _, fun h => absurd h hnot⟩
  · exact ⟨.refl _, fun _ => ⟨rfl, e, rfl, htells⟩⟩

/-- Writing the relation comes to nothing but deletes, and fails if no failure is passed over. -/
theorem relation_of_occupied (levels : Nat) (hentry : (name, v) ∈ data) (hfield : s.field? name = some f) :
    Job.Leads t.database reg times st
      (relation t o f (objects app t (rowWithin app t (levels + 1)) s o pk false f v)) fun r st' =>
        Shrinks st st' ∧ (o.skipFailed = false → st' = st ∧ (o.forgiveRelations = .none →
          ∃ e, r = .error (.relation f.name e) ∧ TellsTaken reg times nested object related c.name st e)) := by
  have hconfined : Job.Keeps (Confined t.database) (objects app t (rowWithin app t (levels + 1)) s o pk false f v) := by
    have hmade := entryMade_of_allowed (t := t) (o := o) (rowWithin_made (levels + 1)) (allowed_isStatement app s data)
      hentry hfield
    exact (hmade.objects (v.holdsObjects_of_mem (hitems ▸ List.mem_singleton.mpr rfl)) pk false).confined
  refine .bind <| .attempt <| .atomicIf _ hconfined ((objects_of_occupied hread hb hi hm hl hc hfk hunique hpk hoccupied
    hobject hwrite hnested hitems levels).imp fun r st' h => ?_)
  obtain ⟨hshrinks, hkept⟩ := h
  cases r with
  | ok u =>
      refine ⟨.pure ⟨hshrinks, fun hskip => ?_⟩, nofun⟩
      obtain ⟨_, e, he, _⟩ := hkept hskip
      cases he
  | error e =>
      have hafter : ∀ st₁, Shrinks st st₁ → (o.skipFailed = false → st₁ = st) → Job.Leads t.database reg times st₁
          (if o.forgiveRelations.allows e then return () else throw (.relation f.name e)) fun r st' =>
            Shrinks st st' ∧ (o.skipFailed = false → st' = st ∧ (o.forgiveRelations = .none →
              ∃ e, r = .error (.relation f.name e) ∧ TellsTaken reg times nested object related c.name st e)) := by
        intro st₁ hshrinks hsame
        refine .ite (fun hforgiven => .pure ⟨hshrinks, fun hskip => ⟨hsame hskip, fun hforgive => ?_⟩⟩)
          fun _ => .throw ⟨hshrinks, fun hskip => ⟨hsame hskip, fun _ => ?_⟩⟩
        · rw [hforgive] at hforgiven
          cases hforgiven
        · obtain ⟨_, e', he, htells⟩ := hkept hskip
          cases he
          exact ⟨e, rfl, htells⟩
      exact ⟨hafter st' hshrinks fun hskip => (hkept hskip).1, fun _ _ => hafter st (.refl st) fun _ => rfl⟩

end Taken

/-! ## The whole save -/

/-- Some data of an owner gives one object without a key for a relation, and beside it columns alone. -/
structure GivesOne (app : Application) (s nested : Schema) (data : Record) (name : String) (f : SchemaField) (v : Value)
    (object : Record) : Prop where
  field : s.field? name = some f
  takes : s.takes .update name
  below : app.nested? s f = .ok (some nested)
  names : (data.map Prod.fst).Nodup
  entry : (name, v) ∈ data
  objects : v.objects = [object]
  keyless : nested.keyOf? object = none
  alone : ∀ e, GivenBeside s data name e → e.1.relationWrite = none

/-- The relation is all that there is to write beside the columns. -/
theorem GivesOne.split_update (h : GivesOne app s nested data name f v object) (hwrite : f.relationWrite.isSome) :
    (SaveParts.split s .update data).keys = [] ∧ (SaveParts.split s .update data).objects = [(f, v)] := by
  have htakes := h.takes
  rw [Schema.takes, h.field, Option.any_some, Bool.and_eq_true, Bool.not_eq_true'] at htakes
  have hholds : v.holdsObjects = true := v.holdsObjects_of_mem (h.objects ▸ List.mem_singleton.mpr rfl)
  obtain ⟨hkeysHere, hobjectsHere⟩ :=
    split_relation (v := v) h.field htakes.1 htakes.2 hwrite (nested_isSome h.below)
  obtain ⟨front, back, hkeys, hobjects, hkeysBeside, hobjectsBeside⟩ := exists_split_around s .update h.names h.entry
  rw [hkeysHere, hholds, if_pos rfl] at hkeys
  rw [hobjectsHere, hholds, if_pos rfl] at hobjects
  have hfrom := fromData_split s .update data
  have hnot : ∀ e, GivenBeside s data name e → e.1.relationWrite.isSome → False := fun e he hsome => by
    rw [h.alone e he] at hsome
    cases hsome
  have hnoKeys : ∀ e, e ∉ front.keys ++ back.keys := fun e he => by
    refine hnot e (hkeysBeside e (List.mem_append.mp he)) (hfrom.relations e.1 e.2 (.inl ?_)).2
    rw [hkeys]
    simpa using he
  have hnoObjects : ∀ e, e ∉ front.objects ++ back.objects := fun e he => by
    refine hnot e (hobjectsBeside e (List.mem_append.mp he)).2 (hfrom.relations e.1 e.2 (.inr ?_)).2
    rw [hobjects]
    rcases List.mem_append.mp he with he | he
    · exact List.mem_append_left _ he
    · exact List.mem_append_right _ (List.mem_append_right _ he)
  obtain ⟨hfrontKeys, hbackKeys⟩ := List.append_eq_nil_iff.mp (List.eq_nil_iff_forall_not_mem.mpr hnoKeys)
  obtain ⟨hfrontObjects, hbackObjects⟩ := List.append_eq_nil_iff.mp (List.eq_nil_iff_forall_not_mem.mpr hnoObjects)
  rw [hkeys, hobjects, hfrontKeys, hbackKeys, hfrontObjects, hbackObjects]
  exact ⟨rfl, rfl⟩

/-- The place of an owner at a unique foreign key is taken, and the row of the owner is not the one to give it up. -/
structure Taken (reg : Registry) (s nested : Schema) (data : Record) (related : Model) (c : Field) (pk : Value)
    (st : Store) : Prop where
  lineage : related ∈ reg.lineage nested.model
  own : c ∈ related.own
  unique : c.unique
  inherits : Inherits reg st
  occupied : Occupied reg st related c.name pk
  leaves : related ∈ reg.lineage s.model →
    ∀ now, ∀ e ∈ (SaveParts.split s .update data).updateColumns s now [], e.1 ≠ c.name

/-- What a save comes to that gives an object for a place that is taken. No row comes to refer to the owner. Those that
did stay, unless failed objects are passed over. If the failures of relations are not passed over either, the save fails,
and where there is nothing else to write and the row would fit elsewhere, it fails for the unique constraint. -/
structure Barred (reg : Registry) (times : Instant → Prop) (s nested : Schema) (data object : Record) (f : SchemaField)
    (related : Model) (field : String) (pk : Value) (o : SaveOptions) (st : Store) (r : Outcome α) (st' : Store) : Prop where
  adds_none : referencing reg st' related field pk ⊆ referencing reg st related field pk
  stays : o.skipFailed = false → referencing reg st' related field pk = referencing reg st related field pk
  fails : o.skipFailed = false → o.forgiveRelations = .none → ∃ e, r = .error e ∧
    ((∀ now, times now → (SaveParts.split s .update data).updateColumns s now [] = []) →
      FitsElsewhere reg times nested object related field st → e = .relation f.name (.uniqueViolated related.name field))

/-- What a save that fails comes to it also comes to if it is undone. -/
theorem Barred.undone {reg : Registry} {e : Failure}
    (h : Barred reg times s nested data object f related field pk o st (.error e : Outcome α) st') :
    Barred reg times s nested data object f related field pk o st (.error e : Outcome α) st where
  adds_none := List.Subset.refl _
  stays _ := rfl
  fails := h.fails

/-- Once a save fails, its outcome is not of any type. -/
theorem Barred.error {β : Type} {reg : Registry} {e : Failure}
    (h : Barred reg times s nested data object f related field pk o st (.error e : Outcome α) st') :
    Barred reg times s nested data object f related field pk o st (.error e : Outcome β) st' where
  adds_none := h.adds_none
  stays := h.stays
  fails hskip hforgive := by
    obtain ⟨e', he, hexact⟩ := h.fails hskip hforgive
    cases he
    exact ⟨e, rfl, hexact⟩

/-- Where a save succeeds, failures are passed over. -/
theorem Barred.ok {β : Type} {reg : Registry} {a : α}
    (h : Barred reg times s nested data object f related field pk o st (.ok a) st') (b : β) :
    Barred reg times s nested data object f related field pk o st (.ok b) st' where
  adds_none := h.adds_none
  stays := h.stays
  fails hskip hforgive := by
    obtain ⟨e, he, _⟩ := h.fails hskip hforgive
    cases he

/-- Writing the columns of the owner leaves its place taken, by the same rows. -/
theorem Taken.written {reg : Registry} {now : Instant} (hr : reg.Rooted) (hrelated : related ∈ reg.models)
    (hm : s.model ∈ reg.models) (hfk : c.isForeignKey) (h : Taken reg s nested data related c pk st)
    (hwritten : (SaveParts.split s .update data).updateColumns s now [] = [] ∧ st₁ = st ∨
      ∃ n, update reg st (target s pk) ((SaveParts.split s .update data).updateColumns s now []) = .ok (n, st₁)) :
    Taken reg s nested data related c pk st₁ ∧
      referencing reg st₁ related c.name pk = referencing reg st related c.name pk ∧
      ((SaveParts.split s .update data).updateColumns s now [] = [] → st₁ = st) := by
  rcases hwritten with ⟨_, rfl⟩ | ⟨n, hupdate⟩
  · exact ⟨h, rfl, fun _ => rfl⟩
  · have hsame : referencing reg st₁ related c.name pk = referencing reg st related c.name pk :=
      referencing_update hr hrelated h.own hfk hm (fun hl => h.leaves hl now) hupdate
    refine ⟨{ h with inherits := update_inherits hr hm h.inherits hupdate, occupied := ?_ }, hsame, ?_⟩
    · obtain ⟨k, hk, hsole⟩ := h.occupied
      exact ⟨k, hsame ▸ hk, hsole⟩
    · intro hbare
      rw [hbare] at hupdate
      obtain ⟨pks, _, hst', _⟩ := update_eq_ok hupdate
      exact hst'.trans (overwrite_nil _ _ pks st)

section Whole

variable (hread : app.registry.Readable) (hb : Registry.build decls = .ok app.registry)
  (hm : nested.model ∈ app.registry.models)
  (hgives : GivesOne app s nested data name f v object)
  (hwrite : f.relationWrite = some (.reverse related c.name nullable)) (hfk : c.isForeignKey)
  (hpk : pk.isNull = false)
include hread hb hm hgives hwrite hfk hpk

/-- The relations of the owner come to nothing but deletes, and fail if no failure is passed over. -/
theorem relations_of_taken (htaken : Taken app.registry s nested data related c pk st) (levels : Nat) :
    Job.Leads t.database app.registry times st
      (relations app t (rowWithin app t (levels + 1)) s o ⟨pk, false, SaveParts.split s .update data⟩) fun r st' =>
        Shrinks st st' ∧ (o.skipFailed = false → st' = st ∧ (o.forgiveRelations = .none →
          ∃ e, r = .error (.relation f.name e) ∧ TellsTaken app.registry times nested object related c.name st e)) := by
  obtain ⟨hkeys, hobjects⟩ := hgives.split_update (by rw [hwrite]; rfl)
  unfold relations
  rw [hkeys, hobjects]
  refine .bind <| .pure <| .bind <| (relation_of_occupied hread hb htaken.inherits hm htaken.lineage htaken.own hfk
    htaken.unique hpk htaken.occupied hgives.keyless hwrite hgives.below hgives.objects levels hgives.entry
    hgives.field).imp fun r st' h => ?_
  cases r with
  | ok u =>
      refine .pure ⟨h.1, fun hskip => ⟨(h.2 hskip).1, fun hforgive => ?_⟩⟩
      obtain ⟨e, he, _⟩ := (h.2 hskip).2 hforgive
      cases he
  | error e =>
      refine ⟨h.1, fun hskip => ⟨(h.2 hskip).1, fun hforgive => ?_⟩⟩
      obtain ⟨e', he, htells⟩ := (h.2 hskip).2 hforgive
      cases he
      exact ⟨e', rfl, htells⟩

variable (hs : s.Declared app.registry) (hkey : s.keyOf? data = some pk) (hcreate : o.mustCreate = false)
  (hrelations : o.withRelations)
include hs hkey hcreate hrelations

/-- What the save of the owner's row comes to. -/
theorem row_of_taken (hfound : ∃ k ∈ st.keys s.model, (Lookup.oneOf [pk]).holds k)
    (htaken : Taken app.registry s nested data related c pk st) :
    Job.Leads t.database app.registry times st (row app t s o data)
      (Barred app.registry times s nested data object f related c.name pk o st) := by
  have hr := Registry.rooted_of_build hb
  have hrelated := hr.mem_models hm htaken.lineage
  -- An object in the data is a level deep, so its own save is not out of levels.
  obtain ⟨levels, hlevels⟩ : ∃ levels, Value.entriesDepth data = levels + 1 := by
    have hpos := entriesDepth_lt_of_mem_objects (hgives.objects ▸ List.mem_singleton.mpr rfl : object ∈ v.objects)
    have hle := depth_le_entriesDepth hgives.entry
    exact ⟨Value.entriesDepth data - 1, by omega⟩
  obtain ⟨k, hk, hholds⟩ := hfound
  have hselect : select app.registry st (target s pk) = _ := select_listed hread hb hs.mem_models st [pk]
  have hsome : (st.keys s.model).filter (Lookup.oneOf [pk]).holds ≠ [] :=
    List.ne_nil_of_mem (List.mem_filter.mpr ⟨hk, hholds⟩)
  rw [row, hlevels, rowWithin]
  refine .bind <| (writeRow_leads_of_found hkey hcreate hselect hsome).imp fun r st₁ h => ?_
  obtain ⟨now, hnow, ⟨⟨e, rfl⟩, rfl, hcolumns⟩ | ⟨rfl, hwritten⟩⟩ := h
  · exact ⟨List.Subset.refl _, fun _ => rfl, fun _ _ => ⟨e, rfl, fun hbare => absurd (hbare now hnow) hcolumns⟩⟩
  · -- The rows that refer to the owner are the same once its columns are written.
    obtain ⟨htaken₁, hsame, hbare⟩ := htaken.written hr hrelated hs.mem_models hfk hwritten
    simp only [hrelations, if_true]
    refine .bind <| (relations_of_taken hread hb hm hgives hwrite hfk hpk htaken₁ levels).imp fun r st' h => ?_
    obtain ⟨hshrinks, hstays⟩ := h
    have hbarred : Barred app.registry times s nested data object f related c.name pk o st r st' := by
      constructor
      case adds_none => exact hsame ▸ hshrinks.referencing_subset hr hrelated htaken.own hfk
      case stays =>
        intro hskip
        rw [(hstays hskip).1, hsame]
      case fails =>
        intro hskip hforgive
        obtain ⟨e, he, htells⟩ := (hstays hskip).2 hforgive
        refine ⟨_, he, fun hnothing hfits => ?_⟩
        rw [htells (hbare (hnothing now hnow) ▸ hfits)]
    cases r with
    | ok u => exact .pure (hbarred.ok pk)
    | error e => exact hbarred.error

end Whole

end Save

namespace Application

open Save

variable {decls : List ModelDecl} {t : WriteTarget} {s nested : Schema} {ctx : Context} {o : SaveOptions}
  {data object : Record} {name : String} {v pk : Value} {f : SchemaField} {related : Model} {c : Field} {field : String}
  {nullable : Bool} {w : World}

/-- A save that updates the row of an owner and is given an object without a key for the other side of a unique foreign
key, while a related row refers to the owner. The object does not take the place of that row: no row comes to refer to
the owner, whatever failures are passed over. If none are, the save fails, in a transaction without having written
anything. Given nothing else, it fails with the unique constraint of the foreign key for every object that could be
inserted for another owner. -/
theorem save_displaces_none (cat : Catalog) (hb : Registry.build decls = .ok w.registry) (hread : w.registry.Readable)
    (hs : s.Declared w.registry) (hm : nested.model ∈ w.registry.models)
    (hgives : GivesOne (w.application cat) s nested data name f v object)
    (hwrite : f.relationWrite = some (.reverse related field nullable)) (hname : c.name = field)
    (hkey : s.keyOf? data = some pk) (hcreate : o.mustCreate = false)
    (hrelations : o.withRelations) (ht : WriteTarget.of w.connections ctx o = .ok t)
    (hfound : ∃ k ∈ (w.database t.database).store.keys s.model, (Lookup.oneOf [pk]).holds k)
    (htaken : Taken w.registry s nested data related c pk (w.database t.database).store) :
    let before := (w.database t.database).store
    let run := w.runJob ((w.application cat).save s data ctx o)
    let after := (run.2.database t.database).store
    referencing w.registry after related field pk ⊆ referencing w.registry before related field pk ∧
      (o.skipFailed = false →
        referencing w.registry after related field pk = referencing w.registry before related field pk ∧
        (o.forgiveRelations = .none → ∃ e, run.1 = .error (ctx.mapFailure e) ∧
          (o.transaction ≠ .none → SameStores w run.2) ∧
          ((∀ now, w.Shows now → (SaveParts.split s .update data).updateColumns s now [] = []) →
            FitsElsewhere w.registry w.Shows nested object related field before →
              e = .relation f.name (.uniqueViolated related.name field)))) := by
  intro before run after
  have hpk : pk.isNull = false := by simpa using (Option.filter_eq_some_iff.mp hkey).2
  have hcheck : o.check = .ok () := by rw [SaveOptions.check, hcreate]; rfl
  obtain ⟨level, _, hkept⟩ := hs.exists_kept hread hb (Schema.mem_fieldList_of_field? hgives.field) hwrite
  cases hkept with
  | @reverse related c' hrelated hc' hfk _ =>
      obtain rfl : c = c' := List.inj_on_of_nodup_map (hread.distinct related hrelated) htaken.own hc' hname
      have hrow : Job.Leads t.database w.registry w.Shows before (row (w.application cat) t s o data)
          (Barred w.registry w.Shows s nested data object f related c.name pk o before) :=
        row_of_taken hread hb hm hgives hwrite hfk hpk hs hkey hcreate hrelations hfound htaken
      have hsave : Job.Leads t.database w.registry w.Shows before ((w.application cat).save s data ctx o) fun r after =>
          ∃ r', Barred w.registry w.Shows s nested data object f related c.name pk o before r' after ∧
            r = r'.mapError ctx.mapFailure := by
        refine save_leads hcheck ht (hrow.imp fun r after h => ⟨⟨r, h, rfl⟩, fun e he => ?_⟩)
        subst he
        exact ⟨.error e, h.undone, rfl⟩
      obtain ⟨r, hbarred, hr⟩ := hsave w rfl (mem_names_of_target ht) (fun _ h => h) rfl
      refine ⟨hbarred.adds_none, fun hskip => ⟨hbarred.stays hskip, fun hforgive => ?_⟩⟩
      obtain ⟨e, he, hexact⟩ := hbarred.fails hskip hforgive
      subst he
      exact ⟨e, hr, fun ho => ((save_allOrNothing (w.application cat) s data ctx ho) w).2 _ hr, hexact⟩

end Application

/-! ## Members with one badge each -/

namespace Badges

open Registry (built modelOf tableOf)

def decls : List ModelDecl :=
  [{ name := "member", fields := [.autoKey "id"] },
    { name := "badge"
      fields := [.autoKey "id", .of "color" .char, .of "member" (.oneToOne "member" (some "badge"))] }]

def badge : Model := modelOf (built decls) "badge"

/-- Two members, of whom the first has a badge. -/
def world : World where
  registry := built decls
  databases := [("default",
    ⟨⟨[("member", tableOf [(1, []), (2, [])]),
      ("badge", { tableOf [(1, [("color", .text "red"), ("member", .int 1)])] with lastId := 1 })]⟩, [], []⟩)]
  main := "default"
  clock := default
  tick := 0

def badgeSchema : Schema :=
  match Schema.build (built decls) {} "Badge" badge [{ name := "id" }, { name := "color" }] with
  | .ok s => s
  | .error _ => default

def catalog : Catalog := { schemas := [(1, badgeSchema)], next := 2 }

/-- The schema of a member with the badge. -/
def memberSchema : Schema :=
  match Schema.build (built decls) catalog "Member" (modelOf (built decls) "member")
    [{ name := "id" }, { name := "badge", nested := some (.schema 1) }] with
  | .ok s => s
  | .error _ => default

def app : Application := world.application catalog

/-- The badge of members. -/
def badgeField : SchemaField := (memberSchema.field? "badge").getD default

/-- A new badge. -/
def blue : Record := [("color", .text "blue")]

/-- A member who is given a new badge. -/
def data (id : Int64) : Record := [("id", .int id), ("badge", .map blue)]

/-- A save of a member who is given a new badge. -/
def saving (id : Int64) (o : SaveOptions) : Job Value := app.save memberSchema (data id) {} o

/-- The badges of a member. -/
def badges (w : World) (id : Int64) : List Value :=
  referencing (built decls) (w.database "default").store badge "member" (.int id)

/-- The new badge can be given to the member who has none, but the one with a badge keeps it, and if failed objects are
passed over is left without any. -/
theorem badge_not_displaced :
    (badgeField.relationWrite = some (.reverse badge "member" false) ∧ badgeSchema.keyOf? blue = none ∧
      badges world 1 = [.int 1] ∧ badges world 2 = []) ∧
    ((world.runJob (saving 2 {})).1.toOption = some (.int 2) ∧ badges (world.runJob (saving 2 {})).2 2 = [.int 2]) ∧
    ((world.runJob (saving 1 {})).1.toOption = none ∧ badges (world.runJob (saving 1 {})).2 1 = [.int 1]) ∧
    (world.runJob (saving 1 { skipFailed := true })).1.toOption = some (.int 1) ∧
      badges (world.runJob (saving 1 { skipFailed := true })).2 1 = [] := by
  refine ⟨⟨rfl, rfl, ?_⟩, ?_⟩
  · decide +kernel
  · decide +kernel

theorem readable_decls : (built decls).Readable where
  distinct := by decide
  undotted := by decide
  reserved := by decide
  keys := by decide
  sides := Registry.sidesAreDeclared_of_forward (by decide)

theorem declared_memberSchema : memberSchema.Declared (built decls) := by
  have hbuild : Schema.build (built decls) catalog "Member" (modelOf (built decls) "member")
      [{ name := "id" }, { name := "badge", nested := some (.schema 1) }] = .ok memberSchema := rfl
  exact .built (by decide +kernel) hbuild

/-- The foreign key of badges. -/
def memberColumn : Field := (badge.own.find? (·.name == "member")).getD default

theorem givesOne_blue : Save.GivesOne app memberSchema badgeSchema (data 1) "badge" badgeField (.map blue) blue where
  field := rfl
  takes := by decide
  below := rfl
  names := by decide
  entry := .tail _ (.head _)
  objects := rfl
  keyless := rfl
  alone := by
    rintro ⟨g, u⟩ ⟨other, hmem, hfield⟩
    obtain ⟨rfl, rfl⟩ := Prod.mk.inj (List.mem_singleton.mp hmem)
    have hnone : (memberSchema.field? "id").bind (·.relationWrite) = none := rfl
    rwa [hfield, Option.bind_some] at hnone

theorem taken_first : Save.Taken app.registry memberSchema badgeSchema (data 1) badge memberColumn (.int 1)
    (world.database "default").store where
  lineage := by decide +kernel
  own := by decide +kernel
  unique := rfl
  inherits m hm upper hupper := by
    have htop : ∀ m ∈ (built decls).models, m.parent = none := by decide
    rw [Registry.lineage_of_top _ (htop m hm), List.mem_singleton] at hupper
    rw [hupper]
    exact List.Subset.refl _
  occupied := ⟨.int 1, by decide +kernel, fun _ h => (Value.equiv_iff_of_isPlain_left rfl).mp h⟩
  leaves hl := absurd hl (by decide +kernel)

theorem shows_world {now : Instant} (h : world.Shows now) : now = default := by
  obtain ⟨n, rfl⟩ := h
  exact Function.iterate_fixed rfl n

/-- The new badge would fit the member who has none. -/
theorem fitsElsewhere_blue : Save.FitsElsewhere app.registry world.Shows badgeSchema blue badge "member"
    (world.database "default").store where
  beside := by decide +kernel
  alone := by decide +kernel
  inserted now at' hnow hat := by
    rw [shows_world hnow, shows_world hat]
    have hsome : (insert app.registry default (world.database "default").store badgeSchema.model
        ((SaveParts.split badgeSchema .create blue).createColumns badgeSchema default none
          [("member", .int 2)])).toOption.isSome := by decide +kernel
    obtain ⟨r, hr⟩ := Option.isSome_iff_exists.mp hsome
    exact ⟨.int 2, r, Outcome.toOption_eq_some.mp hr⟩

/-- The save of the member with a badge fails with the unique constraint and leaves the badge. -/
theorem saving_barred :
    (world.runJob (saving 1 {})).1 = .error (.relation "badge" (.uniqueViolated "badge" "member")) ∧
      SameStores world (world.runJob (saving 1 {})).2 ∧ badges (world.runJob (saving 1 {})).2 1 = badges world 1 := by
  obtain ⟨_, hstays⟩ := @Application.save_displaces_none decls ⟨"default", true⟩ memberSchema badgeSchema {} {} (data 1) blue
    "badge" (.map blue) (.int 1) badgeField badge memberColumn "member" false world catalog rfl readable_decls
    declared_memberSchema (by decide +kernel) givesOne_blue rfl rfl rfl rfl rfl rfl
    ⟨.int 1, by decide +kernel, by decide +kernel⟩ taken_first
  obtain ⟨hbadges, hfails⟩ := hstays rfl
  obtain ⟨e, hrun, hstores, hexact⟩ := hfails rfl
  obtain rfl := hexact (fun _ _ => rfl) fitsElsewhere_blue
  exact ⟨hrun, hstores (by decide), hbadges⟩

end Badges

end RecordMapper
