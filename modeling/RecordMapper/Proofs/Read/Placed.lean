import RecordMapper.Proofs.Read.Needed

/-!
# Placed rows — what reads of one source have in common

A read puts the isolated fields into the prefilled rows of its request
and finishes these (`exists_placed`). Two reads of one source that differ
in their scopes alone fetch and resolve different fields, but what both
need has the same values in the rows of both (`PlacedBy.map_restrict`).
-/

namespace RecordMapper

/-! ## Plans of several contexts -/

namespace ReadPlan

variable {reg : Registry} {s : Schema} {ctx ctx' : Context} {sliced : Bool} {now : Instant} {plan plan' : ReadPlan}
  {keeps : String → Bool}

/-- A plan that is made, restricted to names that are needed and not forced, is made of the fields of these names. -/
theorem restrict_of_make (output : List String) (h : make reg s ctx sliced now = .ok plan)
    (hkeeps : ∀ name, keeps name → needs s ctx name) (hforced : ∀ e ∈ ctx.forced, ¬keeps e.1) :
    (s.fieldList.filter fun f => keeps f.name).foldlM (addField reg s.model sliced now) ⟨[], [], [], [], output⟩ =
      .ok (plan.restrict keeps output) := by
  unfold make at h
  obtain ⟨middle, hmiddle, h⟩ := Outcome.bind_eq_ok.mp h
  obtain ⟨more, hmore, rfl⟩ := foldlM_addForced h
  have hfields : (s.fieldList.filter fun f => keeps f.name) =
      (s.fieldList.filter fun f => needs s ctx f.name).filter fun f => keeps f.name := by
    rw [List.filter_filter]
    refine List.filter_congr fun f _ => ?_
    cases hkept : keeps f.name with
    | true => rw [hkeeps _ hkept, Bool.and_self]
    | false => rfl
  have hnone : (more.filter fun c => keeps c.label) = [] := by
    rw [List.filter_eq_nil_iff]
    intro c hc hkept
    have hlabel : c.label ∈ ctx.forced.map Prod.fst := labels_of_forces hmore ▸ List.mem_map_of_mem hc
    obtain ⟨e, he, hname⟩ := List.mem_map.mp hlabel
    exact hforced e he (hname ▸ hkept)
  have hsame : restrict keeps output { middle with
      columns := middle.columns ++ more, output := middle.output ++ ctx.forced.map Prod.fst } =
        middle.restrict keeps output := by
    simp only [restrict, List.filter_append, hnone, List.append_nil]
  rw [hsame, hfields]
  exact addFields_restrict hmiddle

/-- A needed field that is fetched has a column, and no other column has its name. -/
theorem column_of_make (hnames : (s.fieldList.map (·.name)).Nodup)
    (hforced : ∀ e ∈ ctx.forced, e.1 ∉ s.fieldList.map (·.name)) (h : make reg s ctx sliced now = .ok plan)
    {f : SchemaField} (hf : f ∈ neededFields s ctx) (hfetched : f.isFetched) : ∃ c ∈ plan.columns,
      f.FetchedBy reg s.model sliced c ∧ ∀ c' ∈ plan.columns, c'.label = f.name → c'.expr = c.expr := by
  have hmem := (mem_neededFields.mp hf).1
  obtain ⟨columns, more, hcolumns, hmore, rfl⟩ := make_eq_ok h
  obtain ⟨c, hc, hby⟩ := exists_of_mem_forall₂ hcolumns (List.mem_filter.mpr ⟨hf, hfetched⟩)
  refine ⟨c, List.mem_append_left _ hc, hby, fun c' hc' hlabel => ?_⟩
  rcases List.mem_append.mp hc' with hc' | hc'
  · obtain ⟨g, hg, hby'⟩ := exists_of_mem_forall₂ hcolumns.flip hc'
    have hgmem := (mem_neededFields.mp (List.mem_filter.mp hg).1).1
    obtain rfl : g = f := List.inj_on_of_nodup_map hnames hgmem hmem (hby'.label.symm.trans hlabel)
    exact hby'.expr_eq hby
  · have hname : c'.label ∈ ctx.forced.map Prod.fst := labels_of_forces hmore ▸ List.mem_map_of_mem hc'
    obtain ⟨e, he, hsame⟩ := List.mem_map.mp hname
    exact absurd (List.mem_map.mpr ⟨f, hmem, hlabel.symm.trans hsame.symm⟩) (hforced e he)

/-- Whether two contexts both need the field of a name, and it has no nested schema. -/
def shared (s : Schema) (ctx ctx' : Context) (name : String) : Bool :=
  (s.fieldList.any fun f => f.name == name && f.nested.isNone) && needs s ctx name && needs s ctx' name

theorem shared_iff {name : String} : shared s ctx ctx' name ↔
    (∃ f ∈ s.fieldList, f.name = name ∧ f.nested = none) ∧ needs s ctx name ∧ needs s ctx' name := by
  simp [shared, and_assoc]

theorem nested_of_shared (hnames : (s.fieldList.map (·.name)).Nodup) {f : SchemaField} (hf : f ∈ s.fieldList)
    (h : shared s ctx ctx' f.name) : f.nested = none := by
  obtain ⟨⟨g, hg, hname, hnone⟩, -⟩ := shared_iff.mp h
  rwa [List.inj_on_of_nodup_map hnames hg hf hname] at hnone

theorem shared_key {key : SchemaField} (hkey : s.KeyField reg key) (hflat : key.nested = none) :
    shared s ctx ctx' s.pkName := by
  rw [← hkey.name]
  exact shared_iff.mpr ⟨⟨key, hkey.mem, rfl, hflat⟩, needs_of_mem (mem_requested hkey), needs_of_mem (mem_requested hkey)⟩

/-- Plans of two contexts have the same parts under the names that both need. -/
theorem restrict_shared (hscopes : ctx'.unscoped = ctx.unscoped)
    (hforced : ∀ e ∈ ctx.forced, e.1 ∉ s.fieldList.map (·.name)) (h : make reg s ctx sliced now = .ok plan)
    (h' : make reg s ctx' sliced now = .ok plan') (output : List String) :
    plan.restrict (shared s ctx ctx') output = plan'.restrict (shared s ctx ctx') output := by
  have hnot : ∀ e ∈ ctx.forced, ¬shared s ctx ctx' e.1 := by
    intro e he hshared
    obtain ⟨⟨f, hf, hname, -⟩, -⟩ := shared_iff.mp hshared
    exact hforced e he (List.mem_map.mpr ⟨f, hf, hname⟩)
  have hsame : ctx'.unscoped.forced = ctx.unscoped.forced := congrArg Context.forced hscopes
  have hsame : ctx'.forced = ctx.forced := hsame
  have hown := restrict_of_make output h (fun name hname => (shared_iff.mp hname).2.1) hnot
  have hother := restrict_of_make output h' (fun name hname => (shared_iff.mp hname).2.2) (hsame ▸ hnot)
  exact Except.ok.inj (hown.symm.trans hother)

/-- A finished row shows what was computed under the name of a field that is asked for. -/
theorem lookup_finish_requested (hnames : (s.fieldList.map (·.name)).Nodup)
    (hforced : ∀ e ∈ ctx.forced, e.1 ∉ s.fieldList.map (·.name)) (h : make reg s ctx sliced now = .ok plan)
    {f : SchemaField} (hf : f ∈ requested s ctx) (row : Record) :
    (plan.finish row).lookup f.name = some ((plan.compute row).getD f.name) := by
  have hmem : f.name ∈ (requested s ctx).map (·.name) := List.mem_map_of_mem hf
  have hown : ((requested s ctx).map (·.name)).count f.name = 1 :=
    List.count_eq_one_of_mem (hnames.sublist (List.filter_sublist.map _)) hmem
  have hnone : (ctx.forced.map Prod.fst).count f.name = 0 := by
    rw [List.count_eq_zero]
    intro hmem
    obtain ⟨e, he, hname⟩ := List.mem_map.mp hmem
    exact hforced e he (hname ▸ List.mem_map_of_mem (List.mem_filter.mp hf).1)
  obtain ⟨columns, more, -, -, rfl⟩ := make_eq_ok h
  rw [finish, lookup_takeOut, if_pos (List.mem_append_left _ hmem), List.count_append, hown, hnone, if_pos rfl]

end ReadPlan

/-! ## Rows with their isolated fields -/

namespace Journaling

variable {app : Application} {read : Schema → Source → Context → Journaling (List Record)} {s : Schema} {ctx : Context}
  {keeps : String → Bool} {rows rows' : List Record} {m : Moment}

/-- Resolving a field without a nested schema puts its links in as they are; resolving another leaves the rest. -/
theorem map_restrict_resolveField (hkeeps : keeps s.pkName) {c : Collecting}
    (hflat : keeps c.field.name → c.field.nested = none)
    (h : ((resolveField app read s ctx rows c).exec m).1 = .ok rows') :
    rows'.map (Record.restrict keeps) = if keeps c.field.name
      then assignField s.pkName c.field.name (c.field.shape c.links some) (rows.map (Record.restrict keeps))
      else rows.map (Record.restrict keeps) := by
  by_cases hkept : keeps c.field.name
  · rw [resolveField, materialize, Application.nested_of_none (hflat hkept)] at h
    obtain rfl := Except.ok.inj h
    exact assignField_restrict hkeeps c.field.name _ rows
  · obtain ⟨outcome, -, h⟩ := exec_bind_eq_ok h
    rw [if_neg hkept]
    cases outcome with
    | ok values =>
        cases h
        exact (assignField_restrict hkeeps c.field.name values rows).trans (if_neg hkept)
    | error e =>
        dsimp only at h
        split at h
        · cases h
        · cases h
          rfl

/-- Resolving fields puts in the links of those that are kept, if these have no nested schemas. -/
theorem map_restrict_resolveFields (hkeeps : keeps s.pkName) {collected : List Collecting}
    (hflat : ∀ c ∈ collected, keeps c.field.name → c.field.nested = none)
    (h : ((collected.foldlM (resolveField app read s ctx) rows).exec m).1 = .ok rows') :
    rows'.map (Record.restrict keeps) =
      Collecting.place s.pkName (collected.filter fun c => keeps c.field.name) (rows.map (Record.restrict keeps)) := by
  induction collected generalizing rows m with
  | nil =>
      cases h
      rfl
  | cons c rest ih =>
      rw [List.foldlM_cons] at h
      obtain ⟨middle, hmiddle, h⟩ := exec_bind_eq_ok h
      rw [ih (fun c' hc' => hflat c' (List.mem_cons_of_mem c hc')) h,
        map_restrict_resolveField hkeeps (hflat c List.mem_cons_self) hmiddle, List.filter_cons]
      split
      · rfl
      · rfl

/-- Resolving a field takes no name away. -/
theorem has_resolveField {name : String} {c : Collecting} (hhas : ∀ row ∈ rows, (row.lookup name).isSome)
    (h : ((resolveField app read s ctx rows c).exec m).1 = .ok rows') : ∀ row ∈ rows', (row.lookup name).isSome := by
  obtain ⟨outcome, -, h⟩ := exec_bind_eq_ok h
  cases outcome with
  | ok values =>
      cases h
      intro row' hrow'
      obtain ⟨row, hrow, rfl | ⟨e, -, rfl⟩⟩ := mem_assignField hrow'
      · exact hhas row' hrow
      · by_cases hname : name = c.field.name
        · rw [hname, Record.lookup_insert_self]
          rfl
        · rw [Record.lookup_insert_ne row hname]
          exact hhas row hrow
  | error e =>
      dsimp only at h
      split at h
      · cases h
      · cases h
        exact hhas

theorem has_resolveFields {name : String} {collected : List Collecting}
    (hhas : ∀ row ∈ rows, (row.lookup name).isSome)
    (h : ((collected.foldlM (resolveField app read s ctx) rows).exec m).1 = .ok rows') :
    ∀ row ∈ rows', (row.lookup name).isSome := by
  induction collected generalizing rows m with
  | nil =>
      cases h
      exact hhas
  | cons c rest ih =>
      rw [List.foldlM_cons] at h
      obtain ⟨middle, hmiddle, h⟩ := exec_bind_eq_ok h
      exact ih (has_resolveField hhas hmiddle) h

end Journaling

namespace World

open ReadPlan

/-- What a read that is asked for rows goes by: its request, its plan, the prefilled rows, and these with the isolated
fields put in. -/
structure PlacedBy (w : World) (cat : Catalog) (s : Schema) (src : Source) (ctx : Context) (request : Request)
    (plan : ReadPlan) (before placed : List Record) : Prop where
  asked : s.request? w.registry src ctx.single = .ok (some request)
  planned : ∃ now, (w.runJob Job.clock).1 = .ok now ∧ make w.registry s ctx request.rows.isSliced now = .ok plan
  prefilled : ∃ fetched, (w.application cat).Fetched ctx w request.rows plan.columns fetched ∧
    before = (distinctRows request.order s.pkName fetched).map plan.prefill
  outside : SameOutside (plan.isolated.map (·.name)) before placed
  /-- The links of each field are those that it has alone. -/
  resolved : before = [] ∨ ∃ collected read m, (∀ c ∈ collected, c.field ∈ plan.isolated) ∧
    w.alone (plan.isolated.map (Collecting.collect (w.application cat) ctx (before.map (·.getD s.pkName)))) =
      some collected ∧
    ((collected.foldlM (Journaling.resolveField (w.application cat) read s ctx) before).exec m).1 = .ok placed

variable {w : World} {cat : Catalog} {together : Bool} {s : Schema} {src : Source} {ctx ctx' : Context} {g : Guard}
  {request request' : Request} {plan plan' : ReadPlan} {before before' placed placed' rows rows' : List Record}
  {key : SchemaField}

/-- A read that succeeds finishes the rows of its request. -/
theorem exists_placed (hw : w.Still) (h : (w.readRows cat together s src ctx g).1.1 = .ok rows) :
    s.request? w.registry src ctx.single = .ok none ∧ rows = [] ∨ ∃ request plan before placed,
      w.PlacedBy cat s src ctx request plan before placed ∧ rows = placed.map plan.finish := by
  obtain ⟨prepared, hprepared, hrows⟩ := readRows_resolved h
  rcases Application.prepare_eq_ok hprepared with ⟨hnone, rfl⟩ |
    ⟨request, now, plan, fetched, hrequest, hnow, hmake, hfetched, rfl⟩
  · rcases hrows with ⟨-, rfl⟩ | ⟨_, _, _, _, hsome, _⟩
    · exact .inl ⟨hnone, rfl⟩
    · cases hsome
  · refine .inr ⟨request, plan, (distinctRows request.order s.pkName fetched).map plan.prefill, ?_⟩
    rcases hrows with ⟨hempty, rfl⟩ | ⟨plan', before, read, m, hsome, hworld, hresolved⟩
    · split at hempty
      · rename_i hnil
        rw [List.isEmpty_iff] at hnil
        exact ⟨[], ⟨hrequest, ⟨now, hnow, hmake⟩, ⟨fetched, hfetched, rfl⟩, by rw [hnil]; exact .nil,
          .inl (by rw [hnil]; rfl)⟩, rfl⟩
      · cases hempty
    · split at hsome
      · cases hsome
      · cases hsome
        obtain ⟨collected, placed, m', hcollected, hplaced, rfl⟩ := Journaling.resolveRows_eq_ok hresolved
        -- Preparing has changed nothing, so each field has its links as from the start.
        have htwin : Twin w m.world := hworld ▸ SameStores.twin hw
          (Application.yields_prepare (w.application cat) s src ctx w).1.toSameStores
        have hcollects : Job.Collects _ ((w.application cat).collect together ctx plan
          (((distinctRows request.order s.pkName fetched).map plan.prefill).map (·.getD s.pkName))) :=
          Application.collects_collect together plan _
        have halone := (hcollects m.world (htwin.toAlike.still hw)).2
        rw [hcollected, alone_twin htwin hw] at halone
        have hfields := (w.application cat).returns_collect together plan _ _ _ hcollected
        refine ⟨placed, ⟨hrequest, ⟨now, hnow, hmake⟩, ⟨fetched, hfetched, rfl⟩, ?_, ?_⟩, rfl⟩
        · exact Journaling.sameOutside_resolveFields (fun c hc => List.mem_map_of_mem (hfields c hc)) hplaced
        · exact .inr ⟨collected, read, _, hfields, halone.symm, hplaced⟩

namespace PlacedBy

variable (hp : w.PlacedBy cat s src ctx request plan before placed)
include hp

/-- The computed fields of a row that is not finished are null. -/
theorem lookup_computed (hnames : (s.fieldList.map (·.name)).Nodup) :
    ∀ row ∈ placed, ∀ d ∈ computedFields s ctx, row.lookup d.name = some .null := by
  intro row hrow d hd
  obtain ⟨now, -, hmake⟩ := hp.planned
  obtain ⟨fetched, -, rfl⟩ := hp.prefilled
  obtain ⟨_, hmem, hsame⟩ := hp.outside.exists_of_mem hrow
  obtain ⟨start, -, rfl⟩ := List.mem_map.mp hmem
  rw [hsame d.name, lookup_prefill_computed hnames hmake hd]
  obtain ⟨hdmem, -, hmade⟩ := mem_computedFields.mp hd
  obtain ⟨_, _, -, -, rfl⟩ := make_eq_ok hmake
  intro hisolated
  obtain ⟨f, hf, hname⟩ := List.mem_map.mp hisolated
  obtain ⟨hf, hyes⟩ := List.mem_filter.mp hf
  rw [List.inj_on_of_nodup_map hnames (mem_neededFields.mp hf).1 hdmem hname,
    SchemaField.isIsolated_of_isComputed hmade] at hyes
  cases hyes

/-- Of the fields that are kept, if none of them has a nested schema, the links are put into the rows that were prefilled. -/
theorem exists_links {keeps : String → Bool} (hkeeps : keeps s.pkName)
    (hflat : ∀ f ∈ s.fieldList, keeps f.name → f.nested = none) : before = [] ∧ placed = [] ∨ ∃ collected,
      w.alone ((plan.isolated.filter fun f => keeps f.name).map
        (Collecting.collect (w.application cat) ctx (before.map (·.getD s.pkName)))) = some collected ∧
      placed.map (Record.restrict keeps) = Collecting.place s.pkName collected (before.map (Record.restrict keeps)) := by
  rcases hp.resolved with rfl | ⟨collected, read, m, hfields, halone, hplaced⟩
  · refine .inl ⟨rfl, ?_⟩
    cases hp.outside
    rfl
  · obtain ⟨now, -, hmake⟩ := hp.planned
    refine .inr ⟨_, Collecting.alone_filter halone keeps, ?_⟩
    exact Journaling.map_restrict_resolveFields hkeeps
      (fun c hc => hflat _ (needed_of_make hmake _ (hfields c hc)).1) hplaced

/-- A whole row belongs to a selected one: every fetched field that is needed has one of the values that its column has
there. -/
theorem exists_row (hnames : (s.fieldList.map (·.name)).Nodup)
    (hforced : ∀ e ∈ ctx.forced, e.1 ∉ s.fieldList.map (·.name)) {row : Record} (hrow : row ∈ placed) :
    ∃ request name pks pk, s.request? w.registry src ctx.single = .ok (some request) ∧
      (w.application cat).databaseOf ctx request.rows = .ok name ∧
      Store.select w.registry (w.database name).store request.rows = .ok pks ∧ pk ∈ pks ∧
      ∀ d ∈ neededFields s ctx, d.isFetched → ∃ c, d.FetchedBy w.registry s.model request.rows.isSliced c ∧
        ∃ cells, request.rows.cells w.registry (w.database name).store pk c.expr = .ok cells ∧
          ∃ v ∈ cells, (plan.compute row).lookup d.name = some v := by
  obtain ⟨now, -, hmake⟩ := hp.planned
  obtain ⟨fetched, hfetched, rfl⟩ := hp.prefilled
  obtain ⟨name, hname, -, hfetch⟩ := hfetched.resolve_left fun hnone => by
    rw [(Schema.request_spec hp.asked).1] at hnone
    exact absurd hnone.1 Bool.false_ne_true
  obtain ⟨_, hmem, hsame⟩ := hp.outside.exists_of_mem hrow
  obtain ⟨start, hstart, rfl⟩ := List.mem_map.mp hmem
  obtain ⟨pks, hpks, pk, hpk, -, own, hown, hmem⟩ :=
    Store.exists_of_mem_fetch hfetch ((distinctRows_spec request.order s.pkName fetched).2 start hstart).1
  refine ⟨request, name, pks, pk, hp.asked, hname, hpks, hpk, fun d hd hyes => ?_⟩
  obtain ⟨c, hc, hby, honly⟩ := column_of_make hnames hforced hmake hd hyes
  obtain ⟨more, hcells⟩ := Store.columnCells_of_rowRecords hown hc
  obtain ⟨v, hv, hlookup⟩ := Store.lookup_of_mem_rowRecords hown honly ⟨c, hc, hby.label⟩ hcells start hmem
  have hfields : ∀ g ∈ neededFields s ctx, g.name = d.name → g.isFetched := fun g hg hname =>
    List.inj_on_of_nodup_map hnames (mem_neededFields.mp hg).1 (mem_neededFields.mp hd).1 hname ▸ hyes
  obtain ⟨hisolated, hcomputed, hinitial⟩ := parts_of_fetched hmake hfields
  refine ⟨c, hby, _, hcells, v, hv, ?_⟩
  rw [lookup_compute hcomputed, hsame d.name hisolated, prefill, Record.lookup_extend_of_not_mem start hinitial, hlookup]

/-- Every field that is needed stands in the row, once it is computed. -/
theorem has_needed (hnames : (s.fieldList.map (·.name)).Nodup)
    (hforced : ∀ e ∈ ctx.forced, e.1 ∉ s.fieldList.map (·.name)) {d : SchemaField} (hd : d ∈ neededFields s ctx) :
    ∀ row ∈ placed, ((plan.compute row).lookup d.name).isSome := by
  intro row hrow
  obtain ⟨now, -, hmake⟩ := hp.planned
  by_cases hmade : d.isComputed
  · obtain ⟨hmem, hneeded⟩ := mem_neededFields.mp hd
    obtain ⟨p, hproperty⟩ := Option.isSome_iff_exists.mp (Bool.and_eq_true_iff.mp hmade).2
    obtain ⟨seen, hvalue, -⟩ := exists_seen hnames (computed_of_make hmake) (lookup_computed hp hnames row hrow)
      (mem_computedFields.mpr ⟨hmem, hneeded, hmade⟩) hproperty
    rw [hvalue]
    rfl
  · have hother : ∀ g ∈ plan.computed, g.name ≠ d.name := by
      intro g hg hname
      rw [computed_of_make hmake] at hg
      obtain ⟨hgmem, -, hgmade⟩ := mem_computedFields.mp hg
      rw [List.inj_on_of_nodup_map hnames hgmem (mem_neededFields.mp hd).1 hname] at hgmade
      exact hmade hgmade
    by_cases hfetched : d.isFetched
    · obtain ⟨_, _, _, _, -, -, -, -, hvalues⟩ := exists_row hp hnames hforced hrow
      obtain ⟨_, -, _, -, v, -, hv⟩ := hvalues d hd hfetched
      rw [hv]
      rfl
    · rw [lookup_compute hother]
      obtain ⟨fetched, -, hbefore⟩ := hp.prefilled
      have hstart : ∀ row ∈ before, (row.lookup d.name).isSome := by
        intro row hrow
        rw [hbefore] at hrow
        obtain ⟨start, -, rfl⟩ := List.mem_map.mp hrow
        rw [lookup_prefill_start hnames hmake hd (Bool.eq_false_iff.mpr hfetched)]
        rfl
      rcases hp.resolved with rfl | ⟨_, _, _, -, -, hplaced⟩
      · cases hp.outside
        cases hrow
      · exact Journaling.has_resolveFields hstart hplaced row hrow

/-- A finished row shows the whole row under the names of the fields that are asked for. -/
theorem shows (hnames : (s.fieldList.map (·.name)).Nodup) (hforced : ∀ e ∈ ctx.forced, e.1 ∉ s.fieldList.map (·.name)) :
    ∀ row ∈ placed, ∀ f ∈ requested s ctx, (plan.finish row).lookup f.name = (plan.compute row).lookup f.name := by
  intro row hrow f hf
  obtain ⟨now, -, hmake⟩ := hp.planned
  have hneeded : f ∈ neededFields s ctx := mem_neededFields.mpr ⟨(List.mem_filter.mp hf).1, needs_of_mem hf⟩
  obtain ⟨v, hv⟩ := Option.isSome_iff_exists.mp (has_needed hp hnames hforced hneeded row hrow)
  rw [lookup_finish_requested hnames hforced hmake hf, Record.getD_eq, hv, Option.getD_some]

/-- The computed fields of a whole row, each computed from the row at its turn. -/
theorem computes (hnames : (s.fieldList.map (·.name)).Nodup) (hreads : s.ReadsOnlyDeps) {row : Record}
    (hrow : row ∈ placed) : ∀ f ∈ computedFields s ctx, ∀ p, f.property = some p →
      (∃ seen : Record, (plan.compute row).lookup f.name = some (p.compute seen) ∧
        (∀ d ∈ computedFields s ctx, ¬s.Precedes d f → seen.lookup d.name = some .null) ∧
        ∀ name, (∀ d ∈ computedFields s ctx, ¬s.Precedes d f → d.name ≠ name) →
          seen.lookup name = (plan.compute row).lookup name) ∧
      ((∀ d ∈ computedFields s ctx, d.name ∈ p.deps → s.Precedes d f) →
        (plan.compute row).lookup f.name = some (p.compute (plan.compute row))) := by
  obtain ⟨now, -, hmake⟩ := hp.planned
  have hplan := computed_of_make hmake
  have hnull := lookup_computed hp hnames row hrow
  exact fun f hf p hproperty => ⟨exists_seen hnames hplan hnull hf hproperty,
    fun hdeps => lookup_compute_whole hnames hreads hplan hnull hf hproperty hdeps⟩

variable (hp' : w.PlacedBy cat s src ctx' request' plan' before' placed') (hscopes : ctx'.unscoped = ctx.unscoped)
include hp' hscopes

/-- Scopes say nothing about the request. -/
theorem request_eq : request' = request := by
  have hsingle : ctx'.unscoped.single = ctx.unscoped.single := congrArg Context.single hscopes
  have hsingle : ctx'.single = ctx.single := hsingle
  have hasked := hp'.asked
  rw [hsingle, hp.asked] at hasked
  exact (Option.some.inj (Except.ok.inj hasked)).symm

variable (hforced : ∀ e ∈ ctx.forced, e.1 ∉ s.fieldList.map (·.name))
include hforced

/-- Two reads that differ in scopes alone have plans with the same parts under the names that both need. -/
theorem restrict_plan : plan.restrict (shared s ctx ctx') [] = plan'.restrict (shared s ctx ctx') [] := by
  obtain rfl := request_eq hp hp' hscopes
  obtain ⟨now, hnow, hmake⟩ := hp.planned
  obtain ⟨now', hnow', hmake'⟩ := hp'.planned
  obtain rfl : now = now' := Except.ok.inj (hnow.symm.trans hnow')
  exact restrict_shared hscopes hforced hmake hmake' []

variable (hkey : s.KeyField w.registry key) (hflat : key.nested = none)
include hkey hflat

/-- Two reads that differ in scopes alone start from rows that agree on what both need. -/
theorem map_restrict_before : before.map (Record.restrict (shared s ctx ctx')) =
    before'.map (Record.restrict (shared s ctx ctx')) := by
  have hkeeps : shared s ctx ctx' s.pkName := shared_key hkey hflat
  have hplans := restrict_plan hp hp' hscopes hforced
  have hcolumns : (plan.columns.filter fun c => shared s ctx ctx' c.label) =
      plan'.columns.filter fun c => shared s ctx ctx' c.label := congrArg ReadPlan.columns hplans
  obtain rfl := request_eq hp hp' hscopes
  obtain ⟨fetched, hfetched, rfl⟩ := hp.prefilled
  obtain ⟨fetched', hfetched', rfl⟩ := hp'.prefilled
  have hdistinct : (distinctRows request'.order s.pkName fetched).map (Record.restrict (shared s ctx ctx')) =
      (distinctRows request'.order s.pkName fetched').map (Record.restrict (shared s ctx ctx')) := by
    have hdatabase : (w.application cat).databaseOf ctx'.unscoped request'.rows =
        (w.application cat).databaseOf ctx.unscoped request'.rows := by rw [hscopes]
    have hsome : ¬request'.rows.isNone := Bool.eq_false_iff.mp (Schema.request_spec hp.asked).1
    obtain ⟨name, hname, -, hfetch⟩ := hfetched.resolve_left fun hnone => hsome hnone.1
    obtain ⟨name', hname', -, hfetch'⟩ := hfetched'.resolve_left fun hnone => hsome hnone.1
    obtain rfl : name' = name := Except.ok.inj (hname'.symm.trans (hdatabase.trans hname))
    obtain ⟨fewer, hfewer, hfirst⟩ := Store.firstRows_fetch hkeeps hfetch
    obtain ⟨fewer', hfewer', hfirst'⟩ := Store.firstRows_fetch hkeeps hfetch'
    rw [hcolumns, hfewer'] at hfewer
    cases hfewer
    exact (distinctRows_of_firstRows hfirst request'.order).symm.trans
      (distinctRows_of_firstRows hfirst' request'.order)
  have hprefill : ∀ (plan : ReadPlan) (rows : List Record),
      (rows.map plan.prefill).map (Record.restrict (shared s ctx ctx')) =
        (rows.map (Record.restrict (shared s ctx ctx'))).map (plan.restrict (shared s ctx ctx') []).prefill := by
    intro plan rows
    rw [List.map_map, List.map_map]
    exact List.map_congr_left fun row _ => (prefill_restrict row).symm
  rw [hprefill, hprefill, hplans, hdistinct]

/-- Two reads that differ in scopes alone have the same values of what both need. -/
theorem map_restrict (hnames : (s.fieldList.map (·.name)).Nodup) :
    placed.map (Record.restrict (shared s ctx ctx')) = placed'.map (Record.restrict (shared s ctx ctx')) := by
  have hkeeps : shared s ctx ctx' s.pkName := shared_key hkey hflat
  have hflats : ∀ f ∈ s.fieldList, shared s ctx ctx' f.name → f.nested = none := fun f hf => nested_of_shared hnames hf
  have hbefore := map_restrict_before hp hp' hscopes hforced hkey hflat
  have hempty : before = [] ↔ before' = [] := by
    rw [← List.map_eq_nil_iff (f := Record.restrict (shared s ctx ctx')), hbefore, List.map_eq_nil_iff]
  rcases exists_links hp hkeeps hflats with ⟨hnone, rfl⟩ | ⟨collected, halone, hplaced⟩
  · obtain rfl := hempty.mp hnone
    cases hp'.outside
    rfl
  rcases exists_links hp' hkeeps hflats with ⟨hnone, rfl⟩ | ⟨collected', halone', hplaced'⟩
  · obtain rfl := hempty.mpr hnone
    cases hp.outside
    rfl
  have hisolated : (plan.isolated.filter fun f => shared s ctx ctx' f.name) =
      plan'.isolated.filter fun f => shared s ctx ctx' f.name :=
    congrArg ReadPlan.isolated (restrict_plan hp hp' hscopes hforced)
  have howners : ∀ rows : List Record, rows.map (·.getD s.pkName) =
      (rows.map (Record.restrict (shared s ctx ctx'))).map (·.getD s.pkName) := by
    intro rows
    rw [List.map_map]
    exact List.map_congr_left fun row _ => (Record.getD_restrict hkeeps row).symm
  -- The links of a field are collected for the same owners, whatever the scopes.
  have hlinks : ∀ f, Collecting.collect (w.application cat) ctx' (before'.map (·.getD s.pkName)) f =
      Collecting.collect (w.application cat) ctx (before.map (·.getD s.pkName)) f := by
    intro f
    rw [howners before', ← hbefore, ← howners before, ← Collecting.collect_unscoped, hscopes,
      Collecting.collect_unscoped]
  rw [← hisolated, List.map_congr_left fun f _ => hlinks f, halone] at halone'
  cases halone'
  rw [hplaced, hplaced', hbefore]

end PlacedBy

end World

end RecordMapper
