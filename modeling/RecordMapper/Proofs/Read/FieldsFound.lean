import RecordMapper.Proofs.Read.Meeting
import RecordMapper.Proofs.Read.Prepared
import RecordMapper.Proofs.Read.Unfiltered
import RecordMapper.Proofs.Schema.ByPaths
import RecordMapper.Proofs.Store.Tracked

/-!
# Fields found — reads of fields that are declared by paths

Every query of a read goes by paths of its fields, by primary keys, or
by what the caller asked for beside the fields. If the schema and those
below it are declared by paths and the caller names no unknown field, no
part of the read fails for a field that is not found
(`readRows_findsFields`). That no relation on the way is inherited but
the first is needed: the way back from the owner of a trip's car comes
to an asset, which knows no trips (`driver_not_found`).
-/

namespace RecordMapper

open Registry

/-! ## Sources that name no unknown field -/

/-- What a caller asks for beside the fields names no unknown field: the rows can be selected, their annotations
evaluated, and so can the expressions that the context forces. -/
structure Request.Known (reg : Registry) (m : Model) (ctx : Context) (request : Request) : Prop where
  model : request.rows.model ∈ reg.models
  rows : ∀ st, (Store.select reg st request.rows).FindsFields
  annotations : ∀ st name value, Expression.annotationsOf reg st request.rows name = some value →
    ∀ pk, (value pk).FindsFields
  forced : ∀ e ∈ ctx.forced, Outcome.Meets
    (fun e' => ∀ st pk, (Store.columnCells reg st request.rows.model (Expression.annotationsOf reg st request.rows) pk
      e').FindsFields)
    Failure.FieldsFound (ReadPlan.prepare reg m request.rows.isSliced e.2)

/-- A source of a schema that names no unknown field. -/
def Source.Known (reg : Registry) (s : Schema) (ctx : Context) (src : Source) : Prop :=
  ∀ request, s.request? reg src ctx.single = .ok (some request) → request.Known reg s.model ctx

variable {decls : List ModelDecl} {reg : Registry} {cat : Catalog} {app : Application} {s t : Schema} {src : Source}
  {ctx : Context} {m : Model} {f : SchemaField} {plan : ReadPlan} {request : Request} {qs : Queryset} {path : String}

theorem Schema.request?_findsFields (s : Schema) (src : Source) (single : Bool) :
    (s.request? reg src single).FindsFields := by
  unfold request?
  split
  · split
    · exact nofun
    · split <;> exact trivial
  all_goals exact trivial

section Sources

variable (hb : Registry.build decls = .ok reg) (htold : Told reg) (hm : s.model ∈ reg.models)
include hb htold hm

/-- The rows of keys are selected by the primary key, which every model finds. -/
theorem Request.known_of_keys (hforced : ctx.forced = []) {pks : List Value} {single : Bool}
    (h : s.requestOfKeys pks single = some request) : request.Known reg s.model ctx := by
  obtain ⟨settled, hbuilt⟩ := builtFrom_of_build hb
  obtain ⟨steps, hsteps⟩ := Tracks.key hb htold hm
  obtain ⟨wanted, -, rfl⟩ := Application.requestOfKeys_eq_some h
  refine ⟨hm, fun st => Store.select_test_findsFields (hbuilt.paired htold.sides) htold hm hsteps _, ?_, ?_⟩
  · rintro st name value ⟨⟩
  · rw [hforced]
    exact List.forall_mem_nil _

/-- Sources other than querysets name no unknown field. -/
theorem Source.known_of_keys (hforced : ctx.forced = []) (hsrc : ∀ qs, src ≠ .queryset qs) :
    src.Known reg s ctx := by
  intro request h
  unfold Schema.request? at h
  split at h
  · exact absurd rfl (hsrc _)
  all_goals exact Request.known_of_keys hb htold hm hforced (Except.ok.inj h)

omit htold in
/-- The rows of a source are those of the schema's model or of one that inherits from it. -/
theorem Schema.mem_lineage_of_request {single : Bool} (h : s.request? reg src single = .ok (some request))
    (hmodel : request.rows.model ∈ reg.models) : s.model ∈ reg.lineage request.rows.model := by
  have hkeys : ∀ {pks : List Value}, s.requestOfKeys pks single = some request → request.rows.model = s.model := by
    intro pks h
    obtain ⟨wanted, -, rfl⟩ := Application.requestOfKeys_eq_some h
    rfl
  unfold request? at h
  split at h
  · rename_i qs
    split at h
    · cases h
    · rename_i hsub
      split at h
      · cases h
      · have hrows : request.rows.model = qs.model := by
          cases h
          split <;> rfl
        rw [hrows] at hmodel ⊢
        rw [Bool.not_eq_true', Bool.not_eq_false, isSubModel, List.any_eq_true] at hsub
        obtain ⟨level, hlevel, hname⟩ := hsub
        have hr := rooted_of_build hb
        rwa [← hr.eq_of_name (hr.mem_models hmodel hlevel) hm (beq_iff_eq.mp hname)]
  all_goals
    rw [hkeys (Except.ok.inj h)]
    exact reg.self_mem_lineage s.model

end Sources

/-! ## The rows of a source -/

/-- A plan whose columns can be read from the rows of a queryset; its isolated fields are fields of the schema. -/
structure ReadPlan.Fetchable (reg : Registry) (s : Schema) (qs : Queryset) (plan : ReadPlan) : Prop where
  columns : ∀ c ∈ plan.columns, ∀ st pk,
    (Store.columnCells reg st qs.model (Expression.annotationsOf reg st qs) pk c.expr).FindsFields
  isolated : ∀ f ∈ plan.isolated, f ∈ s.fieldList

section Rows

variable (hb : Registry.build decls = .ok reg) (htold : Told reg) (hs : s.ByPaths reg)
  (hrequest : request.Known reg s.model ctx) (hlevel : s.model ∈ reg.lineage request.rows.model)
include hb htold hs hrequest hlevel

theorem ReadPlan.meets_addField {now : Instant} (hf : f ∈ s.fieldList) (hplan : plan.Fetchable reg s request.rows) :
    Outcome.Meets (Fetchable reg s request.rows) Failure.FieldsFound
      (addField reg s.model request.rows.isSliced now plan f) := by
  obtain ⟨settled, hbuilt⟩ := builtFrom_of_build hb
  rcases (hs.fields f hf).kind_cases with ⟨path, hkind⟩ | ⟨target, link, value, hkind⟩
  · obtain ⟨_, htracks⟩ := (hs.fields f hf).tracks_column hkind
    obtain ⟨_, htracks⟩ := htracks.inherited hb htold hrequest.model hlevel
    rw [addField, hkind]
    refine ⟨fun c hc st pk => ?_, hplan.isolated⟩
    rcases List.mem_append.mp hc with hc | hc
    · exact hplan.columns c hc st pk
    · obtain rfl := List.mem_singleton.mp hc
      exact Store.columnCells_findsFields (hbuilt.paired htold.sides) htold hrequest.model
        (fun value => hrequest.annotations st path value) htracks pk
  · rw [addField, hkind]
    refine ⟨hplan.columns, fun g hg => ?_⟩
    rcases List.mem_append.mp hg with hg | hg
    · exact hplan.isolated g hg
    · exact List.mem_singleton.mp hg ▸ hf

omit hb htold hs hlevel in
theorem ReadPlan.meets_addForced {e : String × Expression} (he : e ∈ ctx.forced)
    (hplan : plan.Fetchable reg s request.rows) :
    Outcome.Meets (Fetchable reg s request.rows) Failure.FieldsFound
      (addForced reg s.model request.rows.isSliced plan e) := by
  refine (hrequest.forced e he).bind fun e' hcells => ⟨fun c hc => ?_, hplan.isolated⟩
  rcases List.mem_append.mp hc with hc | hc
  · exact hplan.columns c hc
  · obtain rfl := List.mem_singleton.mp hc
    exact hcells

theorem ReadPlan.meets_make (now : Instant) :
    Outcome.Meets (Fetchable reg s request.rows) Failure.FieldsFound (make reg s ctx request.rows.isSliced now) := by
  have hfields : ∀ f ∈ s.fieldList.filter fun f => (neededNames (requested s ctx)).contains f.name,
      ∀ plan : ReadPlan, plan.Fetchable reg s request.rows →
        Outcome.Meets (Fetchable reg s request.rows) Failure.FieldsFound
          (addField reg s.model request.rows.isSliced now plan f) := fun f hf _ hplan =>
    meets_addField hb htold hs hrequest hlevel (List.mem_of_mem_filter hf) hplan
  refine (Outcome.Meets.foldlM hfields ⟨List.forall_mem_nil _, List.forall_mem_nil _⟩).bind fun plan hplan => ?_
  exact Outcome.Meets.foldlM (fun e he _ => meets_addForced hrequest he) hplan

end Rows

/-! ## The links of fields -/

/-- A step that sends no query that fails for a field that is not found. -/
def LinkStep.FindsFields (reg : Registry) (step : LinkStep) : Prop :=
  ∀ qs columns, step.query? = some (qs, columns) → ∀ st, (Store.fetch reg st qs columns).FindsFields

theorem Failure.fieldsFound_isolatedField {e : Failure} (name : String) (h : e.FieldsFound) :
    (Failure.isolatedField name e).FieldsFound := h

theorem Failure.fieldsFound_unknownDatabase (name : String) : (Failure.unknownDatabase name).FieldsFound := nofun

namespace Collecting

/-- A field of a schema with steps left that find their fields. -/
structure Sound (reg : Registry) (s : Schema) (c : Collecting) : Prop where
  field : c.field ∈ s.fieldList
  todo : ∀ step ∈ c.todo, step.FindsFields reg

theorem meets_settle {steps : List LinkStep} {links : Links} (hf : f ∈ s.fieldList)
    (hsteps : ∀ step ∈ steps, step.FindsFields reg) :
    Outcome.Meets (Sound reg s) Failure.FieldsFound (settle app ctx f steps links) := by
  induction steps generalizing links with
  | nil => exact ⟨hf, List.forall_mem_nil _⟩
  | cons step rest ih =>
      have hrest := fun step' hstep' => hsteps step' (List.mem_cons_of_mem step hstep')
      rw [settle]
      split
      · exact ih hrest
      · refine (Application.meets_databaseOf Failure.fieldsFound_unknownDatabase).bind fun _ _ => ?_
        split
        · exact ih hrest
        · exact ⟨hf, hsteps⟩

theorem meets_query {step : LinkStep} (hstep : step.FindsFields reg) :
    Job.Meets reg (fun _ => True) Failure.FieldsFound (match step.query? with
      | some (qs, columns) => app.fetch ctx qs columns
      | none => return []) := by
  cases hquery : step.query? with
  | none => exact .pure trivial
  | some query =>
      exact Application.meets_fetch Failure.fieldsFound_unknownDatabase trivial fun _ =>
        hstep query.1 query.2 hquery

theorem meets_advance {c : Collecting} (hc : c.Sound reg s) :
    Job.Meets reg (Sound reg s) Failure.FieldsFound (c.advance app ctx) := by
  obtain ⟨f, todo, links⟩ := c
  cases todo with
  | nil => exact .pure hc
  | cons step rest =>
      refine (meets_query (hc.todo step List.mem_cons_self)).attempt.bind fun fetched hfetched => .ofOutcome ?_
      refine meets_recovered (fun _ => Failure.fieldsFound_isolatedField f.name)
        ⟨hc.field, List.forall_mem_nil _⟩ ?_
      exact hfetched.bind fun rows _ => meets_settle hc.field fun step' hstep' =>
        hc.todo step' (List.mem_cons_of_mem step hstep')

end Collecting

section Fields

variable (hb : Registry.build decls = .ok reg) (htold : Told reg) (hs : s.ByPaths reg)
include hb htold hs

/-- The query of a field over relations finds its fields. -/
theorem SchemaField.meets_linkSteps (hf : f ∈ s.fieldList) (owners : List Value) :
    Outcome.Meets (fun steps => ∀ step ∈ steps, step.FindsFields reg) Failure.FieldsFound (f.linkSteps owners) := by
  obtain ⟨settled, hbuilt⟩ := builtFrom_of_build hb
  have hp := hbuilt.paired htold.sides
  rcases (hs.fields f hf).kind_cases with ⟨path, hkind⟩ | ⟨target, link, value, hkind⟩
  · rw [linkSteps, hkind]
    exact List.forall_mem_nil _
  · obtain ⟨htarget, ⟨_, hlink⟩, ⟨_, hvalue⟩⟩ := (hs.fields f hf).tracks_rows hb htold hs.model hkind
    obtain ⟨_, hkey⟩ := Tracks.key hb htold htarget
    rw [linkSteps, hkind]
    refine List.forall_mem_singleton.mpr ?_
    rintro qs columns ⟨⟩ st
    refine Store.fetch_findsFields (Store.select_test_findsFields hp htold htarget hlink _) fun c hc pk => ?_
    have hcells : ∀ {path : String} {steps : List PathStep}, Tracks reg target (dottedNames path) steps →
        (Store.columnCells reg st target (fun _ => none) pk (.column path)).FindsFields := fun h =>
      Store.columnCells_findsFields hp htold htarget (by rintro _ ⟨⟩) h pk
    simp only [List.mem_cons, List.not_mem_nil, or_false] at hc
    rcases hc with rfl | rfl | rfl
    · exact hcells hlink
    · exact hcells hkey
    · exact hcells hvalue

theorem Collecting.meets_start (hf : f ∈ s.fieldList) (owners : List Value) :
    Outcome.Meets (Sound reg s) Failure.FieldsFound (start app ctx owners f) :=
  meets_recovered (fun _ => Failure.fieldsFound_isolatedField f.name) ⟨hf, List.forall_mem_nil _⟩
    ((SchemaField.meets_linkSteps hb htold hs hf owners).bind fun _ => meets_settle hf)

end Fields

/-! ## Reads -/

/-- The nested schema of a field is one that the read comes to. -/
theorem Application.meets_nested (hf : f ∈ s.fieldList) (hreach : app.catalog.Reaches t s) :
    Outcome.Meets (fun nested => ∀ n, nested = some n → app.catalog.Reaches t n) Failure.FieldsFound
      (app.nested? s f) := by
  unfold nested?
  split
  · rintro n ⟨⟩
  · rename_i r hr
    have hresolve : (app.catalog.resolve s r).FindsFields := by
      unfold Catalog.resolve
      split
      · exact trivial
      all_goals split <;> first | exact trivial | exact nofun
    refine hresolve.self.bind fun n hn => ?_
    have hreached : ∀ n', some n = some n' → app.catalog.Reaches t n' := by
      rintro _ ⟨⟩
      exact hreach.nested hf hr hn
    split
    · rename_i related _
      have hbinding : (SchemaField.checkBinding app.registry s.model f.name related n.model).FindsFields := by
        unfold SchemaField.checkBinding
        split
        · exact trivial
        · exact nofun
      exact hbinding.bind fun _ _ => hreached
    · exact hreached

section Reads

variable (hb : Registry.build decls = .ok app.registry) (htold : Told app.registry)
include hb htold

/-- Rows are prepared for the fields of a schema. -/
theorem Application.meets_prepare (hs : s.ByPaths app.registry) (hsource : src.Known app.registry s ctx) :
    Job.Meets app.registry (fun prepared => ∀ plan rows, prepared = some (plan, rows) →
      ∀ f ∈ plan.isolated, f ∈ s.fieldList) Failure.FieldsFound (app.prepare s src ctx) := by
  refine (Job.Meets.ofOutcome (s.request?_findsFields src ctx.single).self).bind fun request hrequest => ?_
  cases request with
  | none => exact .pure (by rintro _ _ ⟨⟩)
  | some request =>
      have hknown := hsource request hrequest
      have hlevel := Schema.mem_lineage_of_request hb hs.model hrequest hknown.model
      have hclock : Job.Meets app.registry (fun _ => True) Failure.FieldsFound Job.clock := fun _ _ => trivial
      refine hclock.bind fun now _ => ?_
      refine (Job.Meets.ofOutcome (ReadPlan.meets_make hb htold hs hknown hlevel now)).bind fun plan hplan => ?_
      have hfetch : Job.Meets app.registry (fun _ => True) Failure.FieldsFound
          (app.fetch ctx request.rows plan.columns) :=
        meets_fetch Failure.fieldsFound_unknownDatabase trivial fun _ st =>
          Store.fetch_findsFields (hknown.rows st) fun c hc pk => hplan.columns c hc st pk
      refine hfetch.bind fun fetched _ => ?_
      dsimp only
      split
      · exact .pure (by rintro _ _ ⟨⟩)
      · refine .pure ?_
        rintro _ _ ⟨⟩
        exact hplan.isolated

/-- Reading schemas that are declared by paths does not fail for a field that is not found. -/
theorem Reading.rowsWithin_findsFields (together : Bool) (levels : Nat)
    (hs : ∀ s, app.catalog.Reaches t s → s.ByPaths app.registry) (hreach : app.catalog.Reaches t s)
    (hsource : src.Known app.registry s ctx) :
    Reading.Meets app.registry (fun _ => True) Failure.FieldsFound (rowsWithin app together levels s src ctx) := by
  induction levels generalizing s src ctx with
  | zero => exact .pure trivial
  | succ levels ih =>
      rw [rowsWithin_succ]
      refine (Meets.ofJob (Application.meets_prepare hb htold (hs s hreach) hsource)).bind fun prepared hprepared => ?_
      cases prepared with
      | none => exact .pure trivial
      | some prepared =>
          have hcollect : ∀ owners, Job.Meets app.registry (fun cs => ∀ c ∈ cs, c.Sound app.registry s)
              Failure.FieldsFound (app.collect together ctx prepared.1 owners) := fun owners =>
            Collecting.meets_collect (fun f hf => Collecting.meets_start hb htold (hs s hreach)
              (hprepared prepared.1 prepared.2 rfl f hf) owners) (fun c hc => Collecting.meets_advance hc) together rfl
          refine meets_resolveRows hcollect fun c hc rows => ?_
          refine meets_resolveField rows (fun e he => Failure.fieldsFound_isolatedField _ he) ?_
          refine meets_materialize c.links ?_
          refine (Application.meets_nested hc.field hreach).imp fun nested hnested n hn pks => ?_
          -- The rows below are asked for by their keys.
          have hbelow := hnested n hn
          exact ih hbelow (Source.known_of_keys hb htold (hs n hbelow).model rfl nofun)

end Reads

/-- Reading schemas whose fields are declared by paths does not fail for a field that is not found, in any store and
for any source and context that name no unknown field themselves. -/
theorem World.readRows_findsFields {w : World} (hb : Registry.build decls = .ok w.registry) (htold : Told w.registry)
    (hs : ∀ t, cat.Reaches s t → t.ByPaths w.registry) (hsource : src.Known w.registry s ctx) (together : Bool)
    (g : Guard) : ∀ f, (w.readRows cat together s src ctx g).1.1 = .error f → f.root.kind ≠ .fieldNotFound := by
  have hmeets : Reading.Meets (w.application cat).registry (fun _ => True) Failure.FieldsFound
      (Reading.rowsWithin (w.application cat) together (w.levels cat ctx) s src ctx) :=
    Reading.rowsWithin_findsFields hb htold together _ hs .self hsource
  have houtcome : (w.readRows cat together s src ctx g).1.1.FindsFields := hmeets g w rfl
  intro f hf
  rw [hf] at houtcome
  exact houtcome

/-! ## Trips by car -/

namespace Trips

open Registry (built modelOf)

/-- A car is an asset, and assets have owners. A trip is made by car. -/
def models : List ModelDecl :=
  [{ name := "user", fields := [.autoKey "id", { name := "name", type := .char }] },
    { name := "asset"
      fields := [.autoKey "id", { name := "owner", type := .foreignKey "user" (some "assets") }] },
    { name := "car", parent := some "asset", fields := [{ name := "plate", type := .char }] },
    { name := "trip"
      fields := [.autoKey "id", { name := "car", type := .foreignKey "car" (some "trips") }] }]

def user : Model := modelOf (built models) "user"

def car : Model := modelOf (built models) "car"

def trip : Model := modelOf (built models) "trip"

/-- A trip by the car of a user. -/
def calls : List (Instant × Call) :=
  [(default, .insert user [("name", .text "Ann")]),
    (default, .insert car [("owner", .int 1), ("plate", .text "X")]),
    (default, .insert trip [("car", .int 1)])]

def world : World where
  registry := built models
  databases := [("default", { Database.empty.play (built models) calls with log := [] })]
  main := "default"
  clock := default
  tick := 0

def schemaOf (cat : Catalog) (name : String) (m : Model) (fields : List FieldDecl) : Schema :=
  match Schema.build (built models) cat name m fields with
  | .ok s => s
  | .error _ => default

def userSchema : Schema := schemaOf {} "User" user [{ name := "id" }, { name := "name" }]

/-- Users, and cars with their owners. -/
def users : Catalog := { schemas := [(1, userSchema)], next := 2 }

def carFields : List FieldDecl := [{ name := "id" }, { name := "owner", nested := some (.schema 1) }]

def carSchema : Schema := schemaOf users "Car" car carFields

def catalog : Catalog := { schemas := [(1, userSchema), (2, carSchema)], next := 3 }

def tripFields : List FieldDecl :=
  [{ name := "id" }, { name := "plate", source := .path "car.plate" }, { name := "car", nested := some (.schema 2) }]

def tripSchema : Schema := schemaOf catalog "Trip" trip tripFields

/-- Trips with the owner of the car. -/
def driverFields : List FieldDecl :=
  [{ name := "id" }, { name := "driver", source := .path "car.owner", nested := some (.schema 1) }]

def driverSchema : Schema := schemaOf catalog "Trip" trip driverFields

def read (s : Schema) : Outcome (List Record) :=
  (world.readRows catalog true s (.keys [.int 1]) {} Guard.empty).1.1

/-- The kind of the root cause and the message of the failure of a read. -/
def failure? (s : Schema) : Option (Failure.Kind × String) :=
  match read s with
  | .ok _ => none
  | .error f => some (f.root.kind, f.message)

theorem built_models : Registry.build models = .ok (built models) := rfl

theorem told_models : Told (built models) where
  relation := by decide +kernel
  key := by decide +kernel
  sides := sidesAreDeclared_of_forward (by decide +kernel)

theorem byPaths_reached : ∀ t, catalog.Reaches tripSchema t → t.ByPaths (built models) := by
  have hreached : ∀ t, catalog.Reaches tripSchema t → t = tripSchema ∨ t = userSchema ∨ t = carSchema := by
    intro t h
    induction h with
    | self => exact .inl rfl
    | nested _ _ _ ht ih =>
        rcases Catalog.mem_of_resolve ht with rfl | hmem
        · exact ih
        · exact .inr (by simpa [catalog] using hmem)
  have hbuilt : ∀ {cat : Catalog} {name : String} {m : Model} {fields : List FieldDecl},
      m ∈ (built models).models → (∀ d ∈ fields, d.Straight (built models) m) →
      Schema.build (built models) cat name m fields = .ok (schemaOf cat name m fields) →
      (schemaOf cat name m fields).ByPaths (built models) := fun hm hfields h =>
    Schema.byPaths_of_build built_models told_models hm hfields h
  intro t ht
  rcases hreached t ht with rfl | rfl | rfl
  · exact hbuilt (by decide +kernel) (by decide +kernel) rfl
  · exact hbuilt (by decide +kernel) (by decide +kernel) rfl
  · exact hbuilt (by decide +kernel) (by decide +kernel) rfl

/-- A trip is read with its car, and the car with its owner, over a relation that cars inherit. -/
theorem trip_found :
    (Registry.build models = .ok (built models) ∧ Told (built models) ∧
      (∀ t, catalog.Reaches tripSchema t → t.ByPaths (built models)) ∧
      Source.Known (built models) tripSchema {} (.keys [.int 1])) ∧
      (∀ f, read tripSchema = .error f → f.root.kind ≠ .fieldNotFound) ∧
      (read tripSchema).toOption = some [[("id", .int 1), ("plate", .text "X"),
        ("car", .map [("id", .int 1), ("owner", .map [("id", .int 1), ("name", .text "Ann")])])]] := by
  have hknown : Source.Known (built models) tripSchema {} (.keys [.int 1]) :=
    Source.known_of_keys built_models told_models (byPaths_reached _ .self).model rfl nofun
  refine ⟨⟨built_models, told_models, byPaths_reached, hknown⟩, ?_, by decide +kernel⟩
  exact World.readRows_findsFields (w := world) built_models told_models byPaths_reached hknown true Guard.empty

/-- The driver of a trip is not: from the owner the way back leads to the asset, which knows no trips. -/
theorem driver_not_found :
    (Registry.build models = .ok (built models) ∧
      Schema.build (built models) catalog "Trip" trip driverFields = .ok driverSchema ∧
      ∀ d ∈ driverFields, ∃ path ∈ d.path?, ((built models).resolvePath trip path).toOption.isSome) ∧
      failure? driverSchema =
        some (.fieldNotFound, "Failed to resolve field 'driver': Field not found: asset.trips") := by
  refine ⟨⟨built_models, ?_, by decide +kernel⟩, by decide +kernel⟩
  rfl

end Trips

end RecordMapper
