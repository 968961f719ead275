import RecordMapper.Proofs.Read.Scoped
import RecordMapper.Proofs.Read.Whole

/-!
# One owner — the links of an owner among others and alone

The links of many owners are found together. What is found for the first
of them is what is found for it alone, if an order tells the rows of a
query apart without contradiction and a function that is called with all
keys answers for each of them as it does for that key (`exists_links_alone`);
so the row of that owner is put together as it is alone (`put_alone`).
-/

namespace RecordMapper

/-! ## Records that tell of an owner -/

namespace Links

variable {owners owners' : List Value} {o : Value} {acc acc' : Links × List (Value × Value)}

/-- What is known of an owner comes from the records alone that tell of it. -/
theorem lookup_foldl_tells (ho : o ∈ owners) (ho' : o ∈ owners') {rows : List Record}
    (hsame : acc.1.lookup o = acc'.1.lookup o) (hseen : ∀ key, (o, key) ∈ acc.2 ↔ (o, key) ∈ acc'.2) :
    (rows.foldl (addRow owners) acc).1.lookup o =
      ((rows.filter (tells o)).foldl (addRow owners') acc').1.lookup o := by
  induction rows generalizing acc acc' with
  | nil => exact hsame
  | cons row rest ih =>
      rw [List.foldl_cons, List.filter_cons]
      split
      · rw [List.foldl_cons]
        refine ih ?_ fun key => ?_
        · rw [lookup_addRow ho, lookup_addRow ho', hsame]
          simp only [hseen]
        · rw [mem_seen_addRow ho, mem_seen_addRow ho', hseen]
      · rename_i hsilent
        refine ih ?_ fun key => ?_
        · rw [lookup_addRow ho, if_neg fun h => hsilent h.1, hsame]
        · rw [mem_seen_addRow ho, hseen]
          exact or_iff_left fun h => hsilent h.1

/-- Records among which the same tell of an owner give it the same links, whatever other owners there are. -/
theorem lookup_ofRows_congr (ho : o ∈ owners) (ho' : o ∈ owners') {rows rows' : List Record}
    (h : rows.filter (tells o) = rows'.filter (tells o)) :
    (ofRows owners rows).lookup o = (ofRows owners' rows').lookup o := by
  have hnone : ∀ key, (o, key) ∈ (([], []) : Links × List (Value × Value)).2 ↔
      (o, key) ∈ (([], []) : Links × List (Value × Value)).2 := fun _ => .rfl
  rw [ofRows_eq, ofRows_eq, lookup_foldl_tells ho ho rfl hnone, h, ← lookup_foldl_tells ho' ho rfl hnone]

end Links

/-! ## One query -/

namespace Store

variable {reg : Registry} {st : Store} {qs : Queryset} {link value : String} {l l' : Lookup} {columns : List SelectColumn}
  {records : List Record} {o : Value} {owners : List Value}

/-- Of the records that are fetched with a test those are fetched with a narrower one that belong to rows which pass it. -/
theorem fetch_narrower (hsliced : qs.isSliced = false) (himp : ∀ v, l'.holds v → l.holds v)
    (hranked : Ranked reg st (qs.filter (.test link l)))
    (h : st.fetch reg (qs.filter (.test link l)) columns = .ok records) :
    ∃ pks : List Value, ∃ own : Value → List Record,
      (∀ pk ∈ pks, rowRecords reg st qs.model (Expression.annotationsOf reg st qs) columns pk = .ok (own pk)) ∧
      records = pks.flatMap own ∧ st.fetch reg (qs.filter (.test link l')) columns =
        .ok ((pks.filter (meets reg st qs.model (Expression.annotationsOf reg st qs) link l')).flatMap own) := by
  have hannotations : ∀ q, Expression.annotationsOf reg st (qs.filter q) = Expression.annotationsOf reg st qs :=
    fun _ => by cases qs; rfl
  have hopen : (qs.filter (.test link l')).isSliced = false := hsliced
  obtain ⟨-, pks, own, hpks, hown, rfl⟩ := fetch_eq_ok_iff.mp h
  rw [hannotations] at hown
  refine ⟨pks, own, hown, rfl, fetch_eq_ok_iff.mpr ⟨by rw [hopen, Bool.false_and], _, own,
    select_narrower hsliced himp hranked hpks, fun pk hpk => ?_, rfl⟩⟩
  rw [hannotations]
  exact hown pk (List.mem_filter.mp hpk).1

/-- A row whose path leads to a plain owner passes the test for it. -/
theorem meets_of_mem {m : Model} {named : Named} {pk : Value} {vs : List Value} (hplain : o.isPlain)
    (hvs : columnValues reg st m named pk link = .ok vs) (ho : o ∈ vs) : meets reg st m named link (.oneOf [o]) pk := by
  have hany : vs.any (Lookup.oneOf [o]).holds :=
    List.any_eq_true.mpr ⟨o, ho, holds_oneOf_of_isPlain List.mem_cons_self hplain⟩
  rw [meets, Condition.holds, hvs, Outcome.ok_bind, List.isEmpty_eq_false_iff_exists_mem.mpr ⟨o, ho⟩]
  exact hany

/-- What a joined query over many owners finds for one of them is what it finds for that one alone. -/
theorem lookup_links_alone (hsliced : qs.isSliced = false) (ho : o ∈ owners) (hplain : o.isPlain)
    (hranked : Ranked reg st (qs.filter (.test link (.oneOf owners))))
    (h : st.fetch reg (qs.filter (.test link (.oneOf owners))) [⟨Links.ownerLabel, .column link⟩,
      ⟨Links.keyLabel, .column qs.model.pkName⟩, ⟨Links.valueLabel, .column value⟩] = .ok records) :
    ∃ records', st.fetch reg (qs.filter (.test link (.oneOf [o]))) [⟨Links.ownerLabel, .column link⟩,
        ⟨Links.keyLabel, .column qs.model.pkName⟩, ⟨Links.valueLabel, .column value⟩] = .ok records' ∧
      (Links.ofRows [o] records').lookup o = (Links.ofRows owners records).lookup o := by
  have himp : ∀ v, (Lookup.oneOf [o]).holds v → (Lookup.oneOf owners).holds v := by
    intro v hv
    obtain ⟨hnull, w, hw, hsame⟩ := holds_oneOf_iff.mp hv
    exact holds_oneOf_iff.mpr ⟨hnull, w, List.mem_singleton.mp hw ▸ ho, hsame⟩
  obtain ⟨pks, own, hown, rfl, hfetch⟩ := fetch_narrower hsliced himp hranked h
  refine ⟨_, hfetch, Links.lookup_ofRows_congr List.mem_cons_self ho ?_⟩
  -- No record of a row tells of an owner to which the path does not lead.
  have hsilent : ∀ pk ∈ pks, ¬meets reg st qs.model (Expression.annotationsOf reg st qs) link (.oneOf [o]) pk →
      (own pk).filter (Links.tells o) = [] := by
    intro pk hpk hnot
    rw [List.filter_eq_nil_iff]
    intro row hrow htells
    obtain ⟨more, hcells⟩ := columnCells_of_rowRecords (hown pk hpk) List.mem_cons_self
    have honly : ∀ c ∈ [⟨Links.ownerLabel, .column link⟩, ⟨Links.keyLabel, .column qs.model.pkName⟩,
        (⟨Links.valueLabel, .column value⟩ : SelectColumn)], c.label = Links.ownerLabel → c.expr = .column link := by
      simp [Links.ownerLabel, Links.keyLabel, Links.valueLabel]
    obtain ⟨v, hv, hlookup⟩ := lookup_of_mem_rowRecords (hown pk hpk) honly ⟨_, List.mem_cons_self, rfl⟩ hcells row hrow
    have howner := (Links.tells_iff.mp htells).1
    rw [Record.getD_eq, hlookup, Option.getD_some] at howner
    obtain ⟨vs, hvs, hcells⟩ := Outcome.bind_eq_ok.mp hcells
    have hcells : orNull vs = _ := Except.ok.inj hcells
    rw [howner, ← hcells] at hv
    exact hnot (meets_of_mem hplain hvs ((mem_orNull hplain).mp hv))
  rw [List.filter_flatMap, List.filter_flatMap]
  clear h hfetch hown
  induction pks with
  | nil => rfl
  | cons pk rest ih =>
      have hrest := ih fun pk' hpk' => hsilent pk' (List.mem_cons_of_mem pk hpk')
      rw [List.filter_cons, List.flatMap_cons]
      split
      · rw [List.flatMap_cons, hrest]
      · rename_i hnot
        rw [hsilent pk List.mem_cons_self hnot, List.nil_append, hrest]

end Store

/-! ## Steps -/

namespace LinkStep

variable {step : LinkStep} {o : Value}

/-- The owners that a step finds links for. -/
def owners : LinkStep → List Value
  | .known owners _ => owners
  | .keys owners _ => owners
  | .joined owners .. => owners

theorem keys_known (owners values : List Value) : (owners.map fun o => (o, values)).map Prod.fst = owners := by
  rw [List.map_map]
  exact List.map_id _

theorem nodup_links (h : step.owners.Nodup) (rows : List Record) : ((step.links rows).map Prod.fst).Nodup := by
  cases step with
  | known owners values => exact (keys_known owners values).symm ▸ h
  | keys owners qs => exact (keys_known owners _).symm ▸ h
  | joined owners qs link value => exact Links.nodup_keys_ofRows owners rows

/-- A step finds nothing for others than its owners. -/
theorem lookup_links_of_not_mem (h : o ∉ step.owners) (rows : List Record) : (step.links rows).lookup o = none := by
  cases step with
  | known owners values => exact lookup_eq_none_iff_not_mem_keys.mpr ((keys_known owners values).symm ▸ h)
  | keys owners qs => exact lookup_eq_none_iff_not_mem_keys.mpr ((keys_known owners _).symm ▸ h)
  | joined owners qs link value => exact Links.lookup_ofRows_of_not_mem h rows

theorem owners_outputStep (f : SchemaField) (owners : List Value) (out : FunctionOutput) :
    (f.outputStep owners out).owners = owners := by
  cases out <;> rfl

end LinkStep

theorem Application.quiet_rowsOf (app : Application) (ctx : Context) (step : LinkStep) :
    Job.Quiet (app.rowsOf ctx step) := by
  rw [rowsOf]
  split
  · exact app.quiet_fetch ctx _ _
  · exact .pure _

namespace World

variable {w : World} {app : Application} {ctx : Context} {o : Value} {owners : List Value} {step step' : LinkStep}
  {f : SchemaField}

/-- What one step finds for an owner another finds for it too. -/
def FindsAlike (w : World) (app : Application) (ctx : Context) (o : Value) (step step' : LinkStep) : Prop :=
  ∀ rows, (w.runJob (app.rowsOf ctx step)).1 = .ok rows → ∃ rows', (w.runJob (app.rowsOf ctx step')).1 = .ok rows' ∧
    (step'.links rows').lookup o = (step.links rows).lookup o

theorem FindsAlike.refl (step : LinkStep) : w.FindsAlike app ctx o step step := fun rows h => ⟨rows, h, rfl⟩

/-- The output of a function that is the same for several owners is the same for one of them. -/
theorem findsAlike_outputStep (ho : o ∈ owners) (f : SchemaField) (out : FunctionOutput) :
    w.FindsAlike app ctx o (f.outputStep owners out) (f.outputStep [o] out) := by
  have hshared : ∀ values : List Value,
      ([o].map fun o => (o, values)).lookup o = (owners.map fun o => (o, values)).lookup o := by
    intro values
    rw [List.map_singleton, List.lookup_cons_self]
    clear f out
    induction owners with
    | nil => cases ho
    | cons owner rest ih =>
        rw [List.map_cons, List.lookup_cons]
        by_cases howner : o = owner
        · rw [howner, beq_self_eq_true]
        · rw [beq_eq_false_iff_ne.mpr howner]
          exact ih ((List.mem_cons.mp ho).resolve_left howner)
  intro rows h
  cases out <;> exact ⟨rows, h, hshared _⟩

/-- A joined query for several owners finds for one of them what it finds for that one alone. -/
theorem findsAlike_joined {qs : Queryset} {link value : String} (hsliced : qs.isSliced = false) (ho : o ∈ owners)
    (hplain : o.isPlain) (hranked : ∀ name, app.databaseOf ctx qs = .ok name →
      Store.Ranked w.registry (w.database name).store (qs.filter (.test link (.oneOf owners)))) :
    w.FindsAlike app ctx o (.joined owners (qs.filter (.test link (.oneOf owners))) link value)
      (.joined [o] (qs.filter (.test link (.oneOf [o]))) link value) := by
  intro rows h
  obtain ⟨name, hname, -⟩ := World.runJob_bind_eq_ok h
  have hname : app.databaseOf ctx qs = .ok name := hname
  by_cases hnone : qs.isNone
  · have hempty : ∀ owners', w.runJob (app.rowsOf ctx
        (.joined owners' (qs.filter (.test link (.oneOf owners'))) link value)) = (.ok [], w) :=
      fun owners' =>
        have hfiltered : app.databaseOf ctx (qs.filter (.test link (.oneOf owners'))) = .ok name := hname
        app.runJob_fetch_of_isNone hfiltered hnone _ w
    rw [hempty] at h
    cases h
    exact ⟨[], congrArg Prod.fst (hempty [o]), rfl⟩
  · rcases (app.runJob_fetch ctx _ _ w).2 rows h with ⟨hnone', -⟩ | ⟨name', hname', hknown, hfetch⟩
    · exact absurd hnone' hnone
    · obtain rfl : name' = name := Except.ok.inj (Eq.trans (Eq.symm hname') hname)
      obtain ⟨rows', hfetch', hsame⟩ := Store.lookup_links_alone hsliced ho hplain (hranked _ hname) hfetch
      exact ⟨rows', app.runJob_fetch_of_store hname hknown hnone hfetch', hsame⟩

/-! ## Fields -/

variable {others : List Value} {steps : List LinkStep} {links : Links}

/-- A field tells owners apart if the order of its query does not contradict itself on the rows of all of them, and
if a function that is called with all keys answers for the first as it does for that key alone. -/
structure TellsApart (w : World) (app : Application) (ctx : Context) (o : Value) (others : List Value)
    (f : SchemaField) : Prop where
  ranked {qs : Queryset} {link value name : String} : f.kind = .isolated (.queryset qs link value) →
    qs.isSliced = false → app.databaseOf ctx qs = .ok name →
      Store.Ranked w.registry (w.database name).store (qs.filter (.test link (.oneOf (o :: others))))
  keywise {g : FieldFunction} {results : List Value → Outcome (Keyed FunctionOutput)}
    {outputs : Keyed FunctionOutput} : f.kind = .isolated (.function g) → g.call = .batch results →
      results (o :: others) = .ok outputs →
        ∃ outputs', results [o] = .ok outputs' ∧ Keyed.get? outputs' o = Keyed.get? outputs o

/-- The first step of an isolated field finds for the first owner what its only step finds for that owner alone;
the other steps are about others. -/
theorem exists_linkSteps_alone (hisolated : f.isIsolated) (hnd : (o :: others).Nodup) (hplain : o.isPlain)
    (htells : w.TellsApart app ctx o others f)
    (h : f.linkSteps (o :: others) = .ok steps) :
    ∃ step rest step', steps = step :: rest ∧ f.linkSteps [o] = .ok [step'] ∧ w.FindsAlike app ctx o step step' ∧
      step.owners.Nodup ∧ step'.owners = [o] ∧ ∀ t ∈ rest, t.owners.Nodup ∧ o ∉ t.owners := by
  have hother : ∀ pk ∈ others, [pk].Nodup ∧ o ∉ [pk] := fun pk hpk =>
    ⟨List.nodup_singleton pk, fun hmem => (List.nodup_cons.mp hnd).1 (List.mem_singleton.mp hmem ▸ hpk)⟩
  have hnil : ∀ t ∈ ([] : List LinkStep), t.owners.Nodup ∧ o ∉ t.owners := List.forall_mem_nil _
  have ho : o ∈ o :: others := List.mem_cons_self
  have hone : [o].Nodup := List.nodup_singleton o
  rw [SchemaField.linkSteps] at h ⊢
  cases hkind : f.kind with
  | column path => simp [SchemaField.isIsolated, hkind] at hisolated
  | expression e => simp [SchemaField.isIsolated, hkind] at hisolated
  | unmapped => simp [SchemaField.isIsolated, hkind] at hisolated
  | isolated how =>
      simp only [hkind] at h ⊢
      cases how with
      | relation target link value =>
          cases h
          refine ⟨_, [], _, rfl, rfl, findsAlike_joined rfl ho hplain fun name _ => ?_, hnd, rfl, hnil⟩
          exact Store.ranked_of_unordered rfl
      | queryset qs link value =>
          by_cases hsliced : qs.isSliced
          · simp only [hsliced, if_true] at h ⊢
            cases h
            exact ⟨_, _, _, rfl, rfl, .refl _, hone, rfl, List.forall_mem_map.mpr hother⟩
          · simp only [hsliced, Bool.false_eq_true, if_false] at h ⊢
            cases h
            exact ⟨_, [], _, rfl, rfl, findsAlike_joined (Bool.not_eq_true _ ▸ hsliced) ho hplain fun name =>
              htells.ranked hkind (Bool.not_eq_true _ ▸ hsliced), hnd, rfl, hnil⟩
      | function g =>
          simp only [SchemaField.functionSteps] at h ⊢
          cases hcall : g.call with
          | constant result =>
              simp only [hcall] at h ⊢
              obtain ⟨out, hout, h⟩ := Outcome.bind_eq_ok.mp h
              cases h
              rw [hout]
              exact ⟨_, [], _, rfl, rfl, findsAlike_outputStep ho f out,
                (LinkStep.owners_outputStep f _ out).symm ▸ hnd, LinkStep.owners_outputStep f [o] out, hnil⟩
          | perKey result =>
              simp only [hcall, List.mapM_cons] at h ⊢
              obtain ⟨step, hstep, h⟩ := Outcome.bind_eq_ok.mp h
              obtain ⟨rest, hrest, h⟩ := Outcome.bind_eq_ok.mp h
              cases h
              obtain ⟨out, -, hout⟩ := Outcome.map_eq_ok.mp hstep
              have howners : step.owners = [o] := hout ▸ LinkStep.owners_outputStep f [o] out
              rw [hstep]
              refine ⟨step, rest, step, rfl, rfl, .refl step, howners.symm ▸ hone, howners, fun t ht => ?_⟩
              obtain ⟨pk, hpk, hstep⟩ := exists_of_mem_forall₂ (Outcome.mapM_eq_ok.mp hrest).flip ht
              obtain ⟨out, -, rfl⟩ := Outcome.map_eq_ok.mp hstep
              rw [LinkStep.owners_outputStep]
              exact hother pk hpk
          | batch results =>
              simp only [hcall] at h ⊢
              obtain ⟨outputs, houtputs, h⟩ := Outcome.bind_eq_ok.mp h
              cases h
              obtain ⟨outputs', houtputs', hsame⟩ := htells.keywise hkind hcall houtputs
              rw [houtputs', Outcome.ok_bind, Keyed.drain, Keyed.drain, hsame]
              have hown : ∀ pk out, (f.outputStep [pk] out).owners = [pk] := fun pk => LinkStep.owners_outputStep f [pk]
              refine ⟨_, _, _, rfl, rfl, .refl _, ?_, ?_, List.forall_mem_map.mpr ?_⟩
              · cases Keyed.get? outputs o with
                | none => exact hone
                | some out => exact (hown o out).symm ▸ hone
              · cases Keyed.get? outputs o with
                | none => rfl
                | some out => exact hown o out
              · rintro ⟨pk, out⟩ hmem
                have hpk := hother pk (List.of_mem_zip hmem).1
                cases out with
                | none => exact hpk
                | some out => exact (hown pk out).symm ▸ hpk

/-- Steps that are about others leave what is known of an owner. -/
theorem lookup_takeSteps {links' : Links} (hw : w.Still) (hsteps : ∀ t ∈ steps, t.owners.Nodup ∧ o ∉ t.owners)
    (h : (w.runJob (app.takeSteps ctx steps links)).1 = .ok links') : links'.lookup o = links.lookup o := by
  induction steps generalizing links with
  | nil =>
      cases h
      rfl
  | cons step rest ih =>
      obtain ⟨hnd, hother⟩ := hsteps step List.mem_cons_self
      rw [Collecting.takeSteps_cons, (app.quiet_rowsOf ctx step).runJob_bind _ hw] at h
      obtain ⟨rows, -, h⟩ := Outcome.bind_eq_ok.mp h
      rw [ih (fun t ht => hsteps t (List.mem_cons_of_mem step ht)) h,
        Links.lookup_extend _ (LinkStep.nodup_links hnd rows), LinkStep.lookup_links_of_not_mem hother]
      rfl

/-- The first of some owners has the links alone that it has among the others. -/
theorem exists_links_alone (hw : w.Still) (hisolated : f.isIsolated) (hnd : (o :: others).Nodup) (hplain : o.isPlain)
    (htells : w.TellsApart app ctx o others f) (h : (w.runJob (app.findLinks ctx (o :: others) f)).1 = .ok links) :
    ∃ links', (w.runJob (app.findLinks ctx [o] f)).1 = .ok links' ∧ links'.lookup o = links.lookup o := by
  obtain ⟨steps, hsteps, h⟩ := World.runJob_bind_eq_ok h
  have hsteps : f.linkSteps (o :: others) = .ok steps := hsteps
  obtain ⟨step, rest, step', rfl, hstep', halike, hfirst, howners, hrest⟩ :=
    exists_linkSteps_alone hisolated hnd hplain htells hsteps
  have h : (w.runJob (app.takeSteps ctx (step :: rest) [])).1 = .ok links := h
  rw [Collecting.takeSteps_cons, (app.quiet_rowsOf ctx step).runJob_bind _ hw] at h
  obtain ⟨rows, hrows, h⟩ := Outcome.bind_eq_ok.mp h
  obtain ⟨rows', hrows', hsame⟩ := halike rows hrows
  have hone : step'.owners.Nodup := howners.symm ▸ List.nodup_singleton o
  refine ⟨Links.extend [] (step'.links rows'), ?_, ?_⟩
  · rw [Application.findLinks, World.runJob_ofOutcome_bind hstep', Collecting.takeSteps_cons,
      (app.quiet_rowsOf ctx step').runJob_bind _ hw, hrows']
    rfl
  · rw [lookup_takeSteps hw hrest h, Links.lookup_extend _ (LinkStep.nodup_links hfirst rows),
      Links.lookup_extend _ (LinkStep.nodup_links hone rows'), hsame]

end World

/-! ## Rows -/

namespace Collecting

variable {pkName : String} {collected : List Collecting} {fields : List SchemaField} {links links' : SchemaField → Links}
  {row : Record} {o : Value}

/-- The row with the values that a field has collected for it. -/
def put (pkName : String) (row : Record) (c : Collecting) : Record :=
  match Keyed.get? (c.field.shape c.links some) (row.getD pkName) with
  | some v => row.insert c.field.name v
  | none => row

/-- Fields are put into each row apart. -/
theorem place_eq_map (collected : List Collecting) (rows : List Record) :
    place pkName collected rows = rows.map (collected.foldl (put pkName)) := by
  induction collected generalizing rows with
  | nil => exact (List.map_id _).symm
  | cons c rest ih =>
      rw [place, List.foldl_cons]
      refine (ih _).trans ?_
      rw [assignField, List.map_map]
      rfl

theorem getD_put {c : Collecting} (hname : c.field.name ≠ pkName) (row : Record) :
    (put pkName row c).getD pkName = row.getD pkName := by
  rw [put]
  split
  · rw [Record.getD_eq, Record.getD_eq, Record.lookup_insert_ne row hname.symm]
  · rfl

theorem getD_foldl_put (h : ∀ c ∈ collected, c.field.name ≠ pkName) (row : Record) :
    (collected.foldl (put pkName) row).getD pkName = row.getD pkName := by
  induction collected generalizing row with
  | nil => rfl
  | cons c rest ih =>
      rw [List.foldl_cons, ih fun c' hc' => h c' (List.mem_cons_of_mem c hc')]
      exact getD_put (h c List.mem_cons_self) row

/-- What is put into a row depends on the links of its key alone. -/
theorem foldl_put_congr (hplain : o.isPlain) (hkey : row.getD pkName = o)
    (h : ∀ f ∈ fields, f.name ≠ pkName ∧ (links' f).lookup o = (links f).lookup o) :
    (fields.map fun f => ⟨f, [], links' f⟩).foldl (put pkName) row =
      (fields.map fun f => ⟨f, [], links f⟩).foldl (put pkName) row := by
  induction fields generalizing row with
  | nil => rfl
  | cons f rest ih =>
      obtain ⟨hname, hsame⟩ := h f List.mem_cons_self
      have hvalue : ∀ links : Links, Keyed.get? (f.shape links some) o = (links.lookup o).map fun values =>
          if f.relatedSingle then (values.filterMap some).headD .null else .list (values.filterMap some) := by
        intro links
        rw [Keyed.get?, Keyed.seat_of_isPlain hplain, ← Keyed.lookup_map]
        rfl
      have hput : put pkName row ⟨f, [], links' f⟩ = put pkName row ⟨f, [], links f⟩ := by
        rw [put, put, hkey, hvalue, hvalue, hsame]
      rw [List.map_cons, List.map_cons, List.foldl_cons, List.foldl_cons, hput]
      exact ih ((getD_put hname row).trans hkey) fun f' hf' => h f' (List.mem_cons_of_mem f hf')

end Collecting

namespace World

variable {app : Application} {ctx : Context} {owners : List Value} {w : World}

/-- The links that are found for a field, if any are. -/
def linksOf (w : World) (app : Application) (ctx : Context) (owners : List Value) (f : SchemaField) : Links :=
  (w.runJob (app.findLinks ctx owners f)).1.toOption.getD []

theorem linksOf_eq {f : SchemaField} {links : Links} (h : (w.runJob (app.findLinks ctx owners f)).1 = .ok links) :
    w.linksOf app ctx owners f = links := by
  rw [linksOf, h]
  rfl

/-- The fields with the links that are found for them. -/
def collectedOf (w : World) (app : Application) (ctx : Context) (owners : List Value) (fields : List SchemaField) :
    List Collecting :=
  fields.map fun f => ⟨f, [], w.linksOf app ctx owners f⟩

/-- The row with the links that are found for its key among some owners. -/
def wholeRow (w : World) (app : Application) (ctx : Context) (pkName : String) (owners : List Value)
    (fields : List SchemaField) (row : Record) : Record :=
  (w.collectedOf app ctx owners fields).foldl (Collecting.put pkName) row

theorem getD_wholeRow {pkName : String} {fields : List SchemaField} (h : ∀ f ∈ fields, f.name ≠ pkName) (row : Record) :
    (w.wholeRow app ctx pkName owners fields row).getD pkName = row.getD pkName :=
  Collecting.getD_foldl_put (List.forall_mem_map.mpr h) row

/-- A row is given alone what it is given among others, if the fields tell it apart from these. -/
theorem put_alone {pkName : String} {fields : List SchemaField} {row : Record} {o : Value} {others : List Value} (hw : w.Still) (hkey : row.getD pkName = o) (hplain : o.isPlain)
    (hnd : (o :: others).Nodup) (hfields : ∀ f ∈ fields, f.isIsolated ∧ f.name ≠ pkName)
    (htells : ∀ f ∈ fields, w.TellsApart app ctx o others f)
    (hfound : ∀ f ∈ fields, ∃ links, (w.runJob (app.findLinks ctx (o :: others) f)).1 = .ok links) :
    (∀ f ∈ fields, ∃ links, (w.runJob (app.findLinks ctx [o] f)).1 = .ok links) ∧
      w.wholeRow app ctx pkName [o] fields row = w.wholeRow app ctx pkName (o :: others) fields row := by
  have halone : ∀ f ∈ fields, ∃ links links', (w.runJob (app.findLinks ctx (o :: others) f)).1 = .ok links ∧
      (w.runJob (app.findLinks ctx [o] f)).1 = .ok links' ∧ links'.lookup o = links.lookup o := by
    intro f hf
    obtain ⟨links, hlinks⟩ := hfound f hf
    obtain ⟨links', hlinks', hsame⟩ := exists_links_alone hw (hfields f hf).1 hnd hplain (htells f hf) hlinks
    exact ⟨links, links', hlinks, hlinks', hsame⟩
  refine ⟨fun f hf => ?_, Collecting.foldl_put_congr hplain hkey fun f hf => ⟨(hfields f hf).2, ?_⟩⟩
  · obtain ⟨-, links', -, hlinks', -⟩ := halone f hf
    exact ⟨links', hlinks'⟩
  · obtain ⟨links, links', hlinks, hlinks', hsame⟩ := halone f hf
    rw [linksOf_eq hlinks, linksOf_eq hlinks', hsame]

end World

end RecordMapper
