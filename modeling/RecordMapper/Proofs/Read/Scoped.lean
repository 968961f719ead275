import RecordMapper.Proofs.Read.Agreement
import RecordMapper.Proofs.Read.SideBySide
import RecordMapper.Proofs.Read.InStep
import RecordMapper.Proofs.Read.Narrowing
import RecordMapper.Proofs.Read.Unfiltered

/-!
# Scoped — reads of some fields alone

A context with scopes asks for fewer fields. The read then fetches and
resolves what these fields and their properties need, and no more. Of a
schema without nested schemas it yields the rows of the read without
scopes, restricted to the fields in scope (`readRows_scoped`).

Where no field has a nested schema, a read asks nothing of the guard:
whatever the guard knows, the read does what a job does that prepares
the rows, collects the links and puts them in as they are (`flatRows`,
`answers_rowsWithin`).
-/

namespace RecordMapper

/-- No field of the schema has a nested schema. -/
def Schema.Flat (s : Schema) : Prop := ∀ f ∈ s.fieldList, f.nested = none

/-- The rows with the values that some fields have collected. -/
def Collecting.place (pkName : String) (collected : List Collecting) (rows : List Record) : List Record :=
  collected.foldl (fun rows c => assignField pkName c.field.name (c.field.shape c.links some) rows) rows

/-- The rows of a source as a schema without nested schemas reads them. -/
def Application.flatRows (app : Application) (together : Bool) (s : Schema) (src : Source) (ctx : Context) :
    Job (List Record) := do
  match ← app.prepare s src ctx with
  | none => return []
  | some (plan, rows) =>
    let collected ← app.collect together ctx plan (rows.map (·.getD s.pkName))
    return (Collecting.place s.pkName collected rows).map plan.finish

namespace Reading

variable {α β : Type}

/-- Whatever the guard knows, a read does what a job does. -/
def Answers (r : Reading α) (j : Job α) : Prop :=
  ∀ (w : World) (g : Guard), ∃ g', w.run (r.run.run g) = (((w.runJob j).1, g'), (w.runJob j).2)

namespace Answers

theorem ofJob (j : Job α) : Answers (Reading.ofJob j) j := fun w g => ⟨g, InStep.run_ofJob j w g⟩

theorem pure (a : α) : Answers (Pure.pure a) (Pure.pure a) := fun _ g => ⟨g, rfl⟩

/-- What is recorded in the guard before makes no difference. -/
theorem recorded {r : Reading α} {j : Job α} (h : Answers r j) (change : Guard → Guard) :
    Answers (Reading.record change >>= fun _ => r) j := fun w g => h w (change g)

theorem bindOf {r : Reading α} {j : Job α} {k : α → Reading β} {l : α → Job β} {P : α → Prop} (h : Answers r j)
    (hP : Job.Returns P j) (hk : ∀ a, P a → Answers (k a) (l a)) : Answers (r >>= k) (j >>= l) := by
  intro w g
  obtain ⟨g', hrun⟩ := h w g
  cases houtcome : (w.runJob j).1 with
  | ok a =>
      rw [houtcome] at hrun
      rw [World.run_state_bind_ok hrun, World.runJob_bind_ok houtcome]
      exact hk a (hP w a houtcome) _ g'
  | error e =>
      rw [houtcome] at hrun
      rw [World.run_state_bind_error (by rw [hrun]), hrun, World.runJob_bind_error houtcome]
      exact ⟨g', rfl⟩

end Answers

variable {app : Application} {s : Schema} {ctx : Context} {plan : ReadPlan}
  {read : Schema → Source → Context → Reading (List Record)}

/-- Without a nested schema the related values are put in as they are. -/
theorem resolveField_of_none {c : Collecting} (h : c.field.nested = none) (rows : List Record) :
    resolveField app read s ctx rows c =
      pure (assignField s.pkName c.field.name (c.field.shape c.links some) rows) := by
  rw [resolveField, materialize, Application.nested_of_none h]
  rfl

theorem resolveFields_of_none {collected : List Collecting} (h : ∀ c ∈ collected, c.field.nested = none)
    (rows : List Record) :
    collected.foldlM (resolveField app read s ctx) rows = pure (Collecting.place s.pkName collected rows) := by
  induction collected generalizing rows with
  | nil => rfl
  | cons c rest ih =>
      rw [List.foldlM_cons, resolveField_of_none (h c List.mem_cons_self), pure_bind]
      exact ih (fun c' hc' => h c' (List.mem_cons_of_mem c hc')) _

/-- A read without nested schemas is the job of a flat one. -/
theorem answers_rowsWithin (hflat : s.Flat) (app : Application) (together : Bool) (levels : Nat) (src : Source)
    (ctx : Context) :
    Answers (rowsWithin app together (levels + 1) s src ctx) (app.flatRows together s src ctx) := by
  have hprepared : Job.Returns (fun prepared : Option (ReadPlan × List Record) =>
      ∀ p, prepared = some p → ∀ f ∈ p.1.isolated, f.nested = none) (app.prepare s src ctx) := by
    rintro w _ h ⟨plan, rows⟩ rfl f hf
    obtain ⟨_, _, _, _, hplan, _⟩ := Application.exists_of_prepare h
    exact hflat f (ReadPlan.needed_of_make hplan f hf).1
  rw [rowsWithin_succ]
  refine .bindOf (.ofJob _) hprepared fun prepared hfields => ?_
  cases prepared with
  | none => exact .pure []
  | some p =>
      obtain ⟨plan, rows⟩ := p
      refine .recorded (.bindOf (.ofJob _) (app.returns_collect together plan _) fun collected hcollected => ?_) _
      rw [resolveFields_of_none fun c hc => hfields _ rfl _ (hcollected c hc), pure_bind]
      exact .recorded (.pure _) _

end Reading

end RecordMapper

namespace RecordMapper

/-- The context without scopes. -/
def Context.unscoped (ctx : Context) : Context := { ctx with includes := none, excludes := none }

namespace Schema

/-- Whether a field of a name is in scope. -/
def shows (s : Schema) (ctx : Context) (name : String) : Bool :=
  s.fieldList.any fun f => f.name == name && ctx.inScope f.name f.isPrimaryKey

/-- Every property depends on fields that are no properties, and reads nothing of a row but what it depends on. -/
def ReadsDeps (s : Schema) : Prop :=
  ∀ f ∈ s.fieldList, ∀ p, f.property = some p →
    (∀ g ∈ s.fieldList, g.name ∈ p.deps → g.property = none) ∧
      ∀ row row' : Record, (∀ name ∈ p.deps, row.lookup name = row'.lookup name) → p.compute row = p.compute row'

end Schema

/-! ## Plans -/

namespace ReadPlan

variable {reg : Registry} {s : Schema} {ctx : Context} {sliced : Bool} {now : Instant} {plan : ReadPlan}
  {key : SchemaField}

/-- Whether a name is that of a field that is asked for or that a property asked for depends on. -/
def needs (s : Schema) (ctx : Context) (name : String) : Bool := (neededNames (requested s ctx)).contains name

theorem inScope_unscoped (ctx : Context) (name : String) (isPrimaryKey : Bool) :
    ctx.unscoped.inScope name isPrimaryKey = true := by
  cases isPrimaryKey <;> rfl

theorem requested_eq (s : Schema) (ctx : Context) :
    requested s ctx = (requested s ctx.unscoped).filter fun f => ctx.inScope f.name f.isPrimaryKey := by
  simp only [requested, List.filter_filter, inScope_unscoped, Bool.and_true]
  exact List.filter_congr fun f _ => Bool.and_comm _ _

theorem needs_of_mem {f : SchemaField} (h : f ∈ requested s ctx) : needs s ctx f.name :=
  List.contains_iff_mem.mpr (List.mem_append_left _ (List.mem_map_of_mem h))

theorem needs_of_dep {f : SchemaField} (h : f ∈ requested s ctx) {p : Property} (hp : f.property = some p)
    {name : String} (hname : name ∈ p.deps) : needs s ctx name := by
  refine List.contains_iff_mem.mpr (List.mem_append_right _ (List.mem_flatMap.mpr ⟨f, h, ?_⟩))
  rw [hp]
  exact hname

/-- What is needed is a field that is asked for, or a property that is asked for depends on it. -/
theorem cases_of_needs {name : String} (h : needs s ctx name) : (∃ f ∈ requested s ctx, f.name = name) ∨
    ∃ f ∈ requested s ctx, ∃ p, f.property = some p ∧ name ∈ p.deps := by
  rcases List.mem_append.mp (List.contains_iff_mem.mp h) with hname | hdep
  · exact .inl (List.mem_map.mp hname)
  · obtain ⟨f, hf, hdep⟩ := List.mem_flatMap.mp hdep
    cases hp : f.property with
    | none =>
        rw [hp] at hdep
        cases hdep
    | some p =>
        rw [hp] at hdep
        exact .inr ⟨f, hf, p, hp, hdep⟩

theorem needs_unscoped {name : String} (h : needs s ctx name) : needs s ctx.unscoped name := by
  have hmore : ∀ f ∈ requested s ctx, f ∈ requested s ctx.unscoped := by
    intro f hf
    rw [requested_eq] at hf
    exact (List.mem_filter.mp hf).1
  rcases cases_of_needs h with ⟨f, hf, rfl⟩ | ⟨f, hf, p, hp, hdep⟩
  · exact needs_of_mem (hmore f hf)
  · exact needs_of_dep (hmore f hf) hp hdep

/-- The names that are asked for are those asked for without scopes that are in scope. -/
theorem names_requested (hnames : (s.fieldList.map (·.name)).Nodup) (ctx : Context) :
    (requested s ctx).map (·.name) = ((requested s ctx.unscoped).map (·.name)).filter (s.shows ctx) := by
  rw [requested_eq, List.filter_map]
  refine congrArg (List.map _) (List.filter_congr fun f hf => ?_)
  have hf : f ∈ s.fieldList := (List.mem_filter.mp hf).1
  rw [Function.comp_apply, Schema.shows, Bool.eq_iff_iff, List.any_eq_true]
  constructor
  · exact fun hscope => ⟨f, hf, by simpa using hscope⟩
  · rintro ⟨g, hg, hshown⟩
    obtain ⟨hname, hscope⟩ := Bool.and_eq_true_iff.mp hshown
    obtain rfl := List.inj_on_of_nodup_map hnames hg hf (eq_of_beq hname)
    exact hscope

/-- A context with scopes makes the plan of the one without, restricted to what is needed. -/
theorem make_of_unscoped (hnames : (s.fieldList.map (·.name)).Nodup) (hforced : ctx.forced = [])
    (h : make reg s ctx.unscoped sliced now = .ok plan) :
    make reg s ctx sliced now = .ok (plan.restrict (needs s ctx) (plan.output.filter (s.shows ctx))) := by
  have hforced' : ctx.unscoped.forced = [] := hforced
  unfold make at h ⊢
  obtain ⟨middle, hmiddle, h⟩ := Outcome.bind_eq_ok.mp h
  rw [hforced'] at h
  cases h
  have houtput : plan.output = (requested s ctx.unscoped).map (·.name) :=
    Outcome.foldlM_keeps (P := fun p => p.output = (requested s ctx.unscoped).map (·.name))
      (fun f _ _ _ hp hstep => (output_addField hstep).trans hp) rfl hmiddle
  have hfields : (s.fieldList.filter fun f => needs s ctx f.name) =
      (s.fieldList.filter fun f => needs s ctx.unscoped f.name).filter fun f => needs s ctx f.name := by
    rw [List.filter_filter]
    refine List.filter_congr fun f _ => ?_
    cases hneeds : needs s ctx f.name with
    | true => rw [needs_unscoped hneeds, Bool.and_self]
    | false => rfl
  have hstart : (s.fieldList.filter fun f => needs s ctx f.name).foldlM (addField reg s.model sliced now)
      ⟨[], [], [], [], (requested s ctx).map (·.name)⟩ =
        .ok (plan.restrict (needs s ctx) (plan.output.filter (s.shows ctx))) := by
    rw [hfields, names_requested hnames, ← houtput]
    exact addFields_restrict hmiddle
  rw [hforced]
  exact Outcome.bind_eq_ok.mpr ⟨_, hstart, rfl⟩

/-- The properties that are needed are asked for themselves, so all they read is needed. -/
theorem computesFrom_of_make (hnames : (s.fieldList.map (·.name)).Nodup) (hdeps : s.ReadsDeps)
    (hcomputed : ∀ f ∈ plan.computed, f ∈ s.fieldList) : plan.ComputesFrom (needs s ctx) := by
  intro f hf hneeds p hp row
  have hmem := hcomputed f hf
  have hasked : f ∈ requested s ctx := by
    rcases cases_of_needs hneeds with ⟨g, hg, hname⟩ | ⟨g, hg, q, hq, hdep⟩
    · rwa [List.inj_on_of_nodup_map hnames (List.mem_filter.mp hg).1 hmem hname] at hg
    · rw [(hdeps g (List.mem_filter.mp hg).1 q hq).1 f hmem hdep] at hp
      cases hp
  exact (hdeps f hmem p hp).2 _ _ fun name hname => Record.lookup_restrict (needs_of_dep hasked hp hname) row

/-- Restricted to what is needed, a row is finished to the fields in scope. -/
theorem finish_of_unscoped (hnames : (s.fieldList.map (·.name)).Nodup) (hforced : ctx.forced = []) (hdeps : s.ReadsDeps)
    (hmade : plan.Made s key ctx.unscoped) (row : Record) :
    (plan.restrict (needs s ctx) (plan.output.filter (s.shows ctx))).finish (row.restrict (needs s ctx)) =
      (plan.finish row).restrict (s.shows ctx) := by
  have houtput : plan.output = (requested s ctx.unscoped).map (·.name) := by
    have hnone : ctx.unscoped.forced = [] := hforced
    rw [hmade.output, hnone]
    exact List.append_nil _
  refine finish_restrict ?_ (fun name hname hshown => ?_)
    (computesFrom_of_make hnames hdeps fun f hf => (hmade.computed f hf).1) row
  · rw [houtput]
    exact hnames.sublist (List.filter_sublist.map _)
  · have hasked : name ∈ (requested s ctx).map (·.name) := by
      rw [names_requested hnames, ← houtput]
      exact List.mem_filter.mpr ⟨hname, hshown⟩
    obtain ⟨f, hf, rfl⟩ := List.mem_map.mp hasked
    exact needs_of_mem hf

end ReadPlan

/-! ## Rows -/

section Rows

variable {pkName : String} {keeps : String → Bool} {collected : List Collecting}

theorem assignField_restrict (hkeeps : keeps pkName) (name : String) (values : Keyed Value) (rows : List Record) :
    (assignField pkName name values rows).map (Record.restrict keeps) =
      if keeps name then assignField pkName name values (rows.map (Record.restrict keeps))
      else rows.map (Record.restrict keeps) := by
  split
  · rename_i hname
    rw [assignField, assignField, List.map_map, List.map_map]
    refine List.map_congr_left fun row _ => ?_
    simp only [Function.comp_apply, Record.getD_restrict hkeeps]
    cases Keyed.get? values (row.getD pkName) with
    | some v => exact (Record.restrict_insert row name v).trans (if_pos hname)
    | none => rfl
  · rename_i hname
    rw [assignField, List.map_map]
    refine List.map_congr_left fun row _ => ?_
    rw [Function.comp_apply]
    cases Keyed.get? values (row.getD pkName) with
    | some v => exact (Record.restrict_insert row name v).trans (if_neg hname)
    | none => rfl

/-- Put into restricted rows, the fields that are kept give the rows with all fields, restricted. -/
theorem Collecting.place_restrict (hkeeps : keeps pkName) (rows : List Record) :
    place pkName (collected.filter fun c => keeps c.field.name) (rows.map (Record.restrict keeps)) =
      (place pkName collected rows).map (Record.restrict keeps) := by
  unfold place
  induction collected generalizing rows with
  | nil => rfl
  | cons c rest ih =>
      have hfirst := assignField_restrict hkeeps c.field.name (c.field.shape c.links some) rows
      rw [List.filter_cons, List.foldl_cons, ← ih]
      split
      · rename_i hkept
        rw [hfirst, if_pos hkept]
        rfl
      · rename_i hleft
        rw [hfirst, if_neg hleft]

end Rows

/-! ## Links -/

namespace Collecting

variable {app : Application} {ctx : Context} {owners : List Value} {f : SchemaField} {w : World}

/-- Scopes say nothing about the links of a field. -/
theorem collect_unscoped : collect app ctx.unscoped owners f = collect app ctx owners f := by
  rw [collect_eq_findLinks, collect_eq_findLinks]
  rfl

theorem field_of_collect {c : Collecting} (h : (w.runJob (collect app ctx owners f)).1 = .ok c) : c.field = f := by
  rw [collect_eq_findLinks] at h
  obtain ⟨found, _, h⟩ := World.runJob_bind_eq_ok h
  rcases recovered_eq_ok h with h | rfl
  · obtain ⟨links, _, rfl⟩ := Outcome.map_eq_ok.mp h
    rfl
  · rfl

/-- Of fewer fields the links are those that they have among all. -/
theorem alone_filter {fields : List SchemaField} {collected : List Collecting}
    (h : w.alone (fields.map (collect app ctx owners)) = some collected) (keeps : String → Bool) :
    w.alone ((fields.filter fun f => keeps f.name).map (collect app ctx owners)) =
      some (collected.filter fun c => keeps c.field.name) := by
  induction fields generalizing collected with
  | nil =>
      cases h
      rfl
  | cons f rest ih =>
      rw [List.map_cons, World.alone_cons] at h
      obtain ⟨c, hc, h⟩ := Option.bind_eq_some_iff.mp h
      obtain ⟨others, hothers, rfl⟩ := Option.map_eq_some_iff.mp h
      have hfield : c.field = f := field_of_collect (Outcome.toOption_eq_some.mp hc)
      rw [List.filter_cons, List.filter_cons, hfield]
      split
      · rw [List.map_cons, World.alone_cons, hc, ih hothers]
        rfl
      · exact ih hothers

end Collecting

/-! ## Whole reads -/

namespace Application

variable {app : Application} {s : Schema} {ctx : Context} {key : SchemaField} {src : Source} {w : World}

/-- Links are collected as every field has them alone. -/
theorem collects_collect (together : Bool) (plan : ReadPlan) (owners : List Value) :
    Job.Collects (plan.isolated.map (Collecting.collect app ctx owners)) (app.collect together ctx plan owners) :=
  (Reading.faithful_collector together).alone [] ctx owners plan.isolated

/-- What can be fetched for a queryset can be fetched in restricted rows. -/
theorem runJob_fetch_restrict (pkName : String) {keeps : String → Bool} (hkeeps : keeps pkName) {qs : Queryset}
    {columns : List SelectColumn} {fetched : List Record}
    (h : (w.runJob (app.fetch ctx.unscoped qs columns)).1 = .ok fetched) :
    ∃ fetched', (w.runJob (app.fetch ctx qs (columns.filter fun c => keeps c.label))).1 = .ok fetched' ∧
      firstRows pkName fetched' = (firstRows pkName fetched).map fun e => (e.1, e.2.restrict keeps) := by
  -- Scopes say nothing about the database.
  obtain ⟨name, hname, _⟩ := World.runJob_bind_eq_ok h
  have hname : app.databaseOf ctx qs = .ok name := hname
  by_cases hnone : qs.isNone
  · have hnothing : w.runJob (app.fetch ctx.unscoped qs columns) = (.ok [], w) :=
      runJob_fetch_of_isNone hname hnone columns w
    rw [hnothing] at h
    cases h
    exact ⟨[], by rw [runJob_fetch_of_isNone hname hnone], rfl⟩
  · rcases (app.runJob_fetch ctx.unscoped qs columns w).2 fetched h with ⟨hsome, _⟩ | ⟨name', hname', hknown, hfetch⟩
    · exact absurd hsome hnone
    · obtain ⟨fetched', hfetch', hfirst⟩ := Store.firstRows_fetch hkeeps hfetch
      exact ⟨fetched', runJob_fetch_of_store hname' hknown hnone hfetch', hfirst⟩

/-- A read with scopes prepares the rows that the one without prepares, restricted to what is needed. -/
theorem prepare_of_unscoped (hkey : s.KeyField app.registry key) (hnames : (s.fieldList.map (·.name)).Nodup)
    (hforced : ctx.forced = []) {prepared : Option (ReadPlan × List Record)}
    (h : (w.runJob (app.prepare s src ctx.unscoped)).1 = .ok prepared) :
    (w.runJob (app.prepare s src ctx)).1 = .ok (prepared.map fun p =>
      (p.1.restrict (ReadPlan.needs s ctx) (p.1.output.filter (s.shows ctx)),
        p.2.map (Record.restrict (ReadPlan.needs s ctx)))) := by
  have hkeeps : ReadPlan.needs s ctx s.pkName := hkey.name ▸ ReadPlan.needs_of_mem (ReadPlan.mem_requested hkey)
  obtain ⟨request, hrequest, h⟩ := World.runJob_bind_eq_ok h
  have hrequest : s.request? app.registry src ctx.single = .ok request := hrequest
  rw [prepare, World.runJob_ofOutcome_bind hrequest]
  cases request with
  | none =>
      cases h
      rfl
  | some request =>
      obtain ⟨now, hnow, h⟩ := World.runJob_bind_eq_ok h
      obtain ⟨plan, hplan, h⟩ := World.runJob_bind_eq_ok h
      obtain ⟨fetched, hfetched, h⟩ := World.runJob_bind_eq_ok h
      obtain ⟨fetched', hfetched', hfirst⟩ := runJob_fetch_restrict s.pkName hkeeps hfetched
      have hrows := distinctRows_of_firstRows hfirst request.order
      have hmade := ReadPlan.make_of_unscoped hnames hforced hplan
      have hnow : (w.runJob Job.clock).1 = .ok now := hnow
      dsimp only
      rw [World.runJob_bind_ok hnow, World.runJob_ofOutcome_bind hmade]
      refine (congrArg Prod.fst (World.runJob_bind_ok hfetched' _)).trans ?_
      dsimp only at h ⊢
      rw [hrows]
      by_cases hempty : (distinctRows request.order s.pkName fetched).isEmpty
      · rw [if_pos hempty] at h
        cases h
        rw [List.isEmpty_iff.mp hempty]
        rfl
      · have hempty' : ¬((distinctRows request.order s.pkName fetched).map
            (Record.restrict (ReadPlan.needs s ctx))).isEmpty := by
          simpa using hempty
        rw [if_neg hempty] at h
        cases h
        rw [if_neg hempty', List.map_map]
        refine congrArg (fun rows => Except.ok (some (_, rows))) ?_
        rw [List.map_map]
        exact List.map_congr_left fun row _ => ReadPlan.prefill_restrict row

/-- The links of fewer fields are collected where those of all are. -/
theorem runJob_collect_restrict {together : Bool} {plan : ReadPlan} {owners : List Value} {collected : List Collecting}
    {w' : World} (hw : w.Still) (htwin : World.Twin w w')
    (h : (w.runJob (app.collect together ctx.unscoped plan owners)).1 = .ok collected) (keeps : String → Bool)
    (output : List String) :
    (w'.runJob (app.collect together ctx (plan.restrict keeps output) owners)).1 =
      .ok (collected.filter fun c => keeps c.field.name) := by
  have hunscoped : plan.isolated.map (Collecting.collect app ctx.unscoped owners) =
      plan.isolated.map (Collecting.collect app ctx owners) :=
    List.map_congr_left fun _ _ => Collecting.collect_unscoped
  have hcollects : Job.Collects _ (app.collect together ctx.unscoped plan owners) :=
    collects_collect together plan owners
  have hcollects' : Job.Collects _ (app.collect together ctx (plan.restrict keeps output) owners) :=
    collects_collect together (plan.restrict keeps output) owners
  have hall := (hcollects w hw).2
  have hfewer := (hcollects' w' (htwin.toAlike.still hw)).2
  rw [h, hunscoped] at hall
  rw [World.alone_twin htwin hw] at hfewer
  exact Outcome.toOption_eq_some.mp (hfewer.trans (Collecting.alone_filter hall.symm keeps))

theorem flatRows_of_unscoped {together : Bool} {rows : List Record} (hkey : s.KeyField app.registry key)
    (hnames : (s.fieldList.map (·.name)).Nodup) (hforced : ctx.forced = []) (hdeps : s.ReadsDeps) (hw : w.Still)
    (h : (w.runJob (app.flatRows together s src ctx.unscoped)).1 = .ok rows) :
    (w.runJob (app.flatRows together s src ctx)).1 = .ok (rows.map (Record.restrict (s.shows ctx))) := by
  obtain ⟨prepared, hprepared, h⟩ := World.runJob_bind_eq_ok h
  have hprepared' := prepare_of_unscoped hkey hnames hforced hprepared
  rw [flatRows, World.runJob_bind_ok hprepared']
  cases prepared with
  | none =>
      cases h
      rfl
  | some p =>
      obtain ⟨plan, before⟩ := p
      have hmade := (made_of_prepare hkey hprepared).1
      obtain ⟨collected, hcollected, h⟩ := World.runJob_bind_eq_ok h
      cases h
      have hkeeps : ReadPlan.needs s ctx s.pkName := hkey.name ▸ ReadPlan.needs_of_mem (ReadPlan.mem_requested hkey)
      have howners : (before.map (Record.restrict (ReadPlan.needs s ctx))).map (·.getD s.pkName) =
          before.map (·.getD s.pkName) := by
        rw [List.map_map]
        exact List.map_congr_left fun row _ => Record.getD_restrict hkeeps row
      -- Both reads have changed nothing so far, so the links are collected in worlds alike.
      have htwin := World.SameStores.twin hw (yields_prepare app s src ctx.unscoped w).1.toSameStores
      have htwin' := World.SameStores.twin hw (yields_prepare app s src ctx w).1.toSameStores
      have hcollected' := runJob_collect_restrict (htwin.toAlike.still hw) (htwin.symm.trans htwin') hcollected
        (ReadPlan.needs s ctx) (plan.output.filter (s.shows ctx))
      dsimp only [Option.map_some]
      rw [howners]
      refine (congrArg Prod.fst (World.runJob_bind_ok hcollected' _)).trans (congrArg Except.ok ?_)
      rw [Collecting.place_restrict hkeeps, List.map_map, List.map_map]
      exact List.map_congr_left fun row _ => ReadPlan.finish_of_unscoped hnames hforced hdeps hmade row

end Application

namespace World

variable {decls : List ModelDecl} {w : World} {s : Schema} {ctx : Context} {rows : List Record}

/-- A read without nested schemas asks nothing of the guard. -/
theorem readRows_of_flat {cat : Catalog} {together : Bool} {src : Source} {g : Guard} (hflat : s.Flat) :
    (w.readRows cat together s src ctx g).1.1 =
      (w.runJob ((w.application cat).flatRows together s src ctx)).1 := by
  obtain ⟨levels, hlevels⟩ : ∃ levels, w.levels cat ctx = levels + 1 := ⟨_, rfl⟩
  obtain ⟨g', hrun⟩ := Reading.answers_rowsWithin hflat (w.application cat) together levels src ctx w g
  rw [readRows, hlevels, hrun]

namespace Reports

open Registry (built modelOf writers writings)

/-- The authors and their articles. -/
def office : World where
  registry := built writers
  databases := [("default", ⟨writings, [], []⟩)]
  main := "default"
  clock := default
  tick := 0

def reportFields : List FieldDecl :=
  [{ name := "id" }, { name := "articles", mode := some "w" },
    { name := "words", source := .expression (.aggregateOf .sum (.column "articles.words")) },
    { name := "tags"
      source := .function ⟨.perKey fun _ => .error (.database "tags are down"), none⟩
      silent := true
      single := some false },
    { name := "report"
      source := .property ⟨["articles", "words"], fun row => .list [row.getD "articles", row.getD "words"]⟩ }]

/-- The schema of an author with a report that is made of the articles, which are only written, and their words. -/
def author : Schema :=
  match Schema.build (built writers) {} "Author" (modelOf (built writers) "author") reportFields with
  | .ok s => s
  | .error _ => default

/-- Asks for the report alone. -/
def reportOnly : Context := { includes := some (.ofPaths ["report"]) }

/-- The author as she is read without scopes. -/
def full : List Record :=
  [[("id", .int 1), ("words", .int 800), ("tags", .list []),
    ("report", .list [.list [.int 1, .int 2], .int 800])]]

end Reports

end World

end RecordMapper
