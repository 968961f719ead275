import RecordMapper.Proofs.Entries
import RecordMapper.Proofs.Schema.Declared
import RecordMapper.Proofs.Store.Aggregates
import RecordMapper.Proofs.Value.Plain
import RecordMapper.Read.Plan

/-!
# Plans — what a read does to the keys of its rows

The plan of a read fetches the primary key as a column, or keeps its
place with an empty value if the key is a relation. Nothing else in the
plan bears the name of the key, so prefilled and finished rows have the
key that was fetched; only an expression that the context forces under
the name of the key blots it out. An isolated field starts with its
placeholder, and what a finished row has besides is what was asked for.
-/

namespace RecordMapper

namespace ReadPlan

variable {reg : Registry} {s : Schema} {ctx : Context} {sliced : Bool} {now : Instant} {plan : ReadPlan}
  {key f : SchemaField} {row : Record}

/-! ## Finishing -/

/-- A value that is taken out once is the row's, one that is taken out again is null. -/
theorem lookup_takeOut (names : List String) (row out : Record) (name : String) :
    (takeOut names row out).lookup name =
      if name ∈ names then some (if names.count name = 1 then row.getD name else .null)
      else out.lookup name := by
  induction names generalizing row out with
  | nil => rfl
  | cons n rest ih =>
      rw [takeOut, ih, List.count_cons]
      by_cases hn : n = name
      · subst hn
        by_cases hrest : n ∈ rest
        · have hcount : 0 < rest.count n := List.count_pos_iff.mpr hrest
          have herased : (row.erase n).getD n = .null := by
            rw [Record.getD_eq, Record.lookup_erase_self]
            rfl
          rw [if_pos hrest, if_pos List.mem_cons_self, herased, ite_self, beq_self_eq_true, if_pos rfl,
            if_neg (by omega)]
        · rw [if_neg hrest, if_pos List.mem_cons_self, List.count_eq_zero.mpr hrest, beq_self_eq_true,
            if_pos rfl, if_pos rfl, Record.lookup_insert_self]
      · have hrow : (row.erase n).getD name = row.getD name := by
          rw [Record.getD_eq, Record.lookup_erase_ne row (Ne.symm hn), Record.getD_eq]
        have hmem : name ∈ n :: rest ↔ name ∈ rest := by
          rw [List.mem_cons, or_iff_right (Ne.symm hn)]
        rw [hrow, Record.lookup_insert_ne out (Ne.symm hn), beq_eq_false_iff_ne.mpr hn]
        simp only [hmem, Bool.false_eq_true, if_false, Nat.add_zero]

/-- Names of which none stands twice are taken out in their order. -/
theorem names_takeOut (names : List String) (row : Record) {out : Record}
    (h : (out.map Prod.fst ++ names).Nodup) :
    (takeOut names row out).map Prod.fst = out.map Prod.fst ++ names := by
  induction names generalizing row out with
  | nil => exact (List.append_nil _).symm
  | cons n rest ih =>
      have hnew : n ∉ out.map Prod.fst := fun hmem =>
        (List.nodup_append.mp h).2.2 n hmem n List.mem_cons_self rfl
      have hkeys : (out.insert n (row.getD n)).map Prod.fst = out.map Prod.fst ++ [n] :=
        keys_insertEntry_of_not_mem _ hnew
      rw [List.append_cons, ← hkeys] at h
      rw [takeOut, ih _ h, hkeys, List.append_assoc]
      rfl

theorem lookup_compute (h : ∀ f ∈ plan.computed, f.name ≠ name) (row : Record) :
    (plan.compute row).lookup name = row.lookup name := by
  unfold compute
  generalize plan.computed = fields at h
  induction fields generalizing row with
  | nil => rfl
  | cons f rest ih =>
      rw [List.foldl_cons, ih _ fun g hg => h g (List.mem_cons_of_mem f hg)]
      split
      · exact Record.lookup_insert_ne row (Ne.symm (h f List.mem_cons_self)) _
      · rfl

theorem getD_compute (h : ∀ f ∈ plan.computed, f.name ≠ name) (row : Record) :
    (plan.compute row).getD name = row.getD name := by
  rw [Record.getD_eq, lookup_compute h, Record.getD_eq]

/-! ## What is in a plan -/

/-- What a plan has beside its columns comes from fields of the schema: isolated ones start with their
placeholder, and only unmapped ones are computed. -/
structure FromFields (s : Schema) (plan : ReadPlan) : Prop where
  computed : ∀ f ∈ plan.computed, f ∈ s.fieldList ∧ f.isUnmapped
  isolated : ∀ f ∈ plan.isolated, f ∈ s.fieldList ∧ f.isIsolated
  initial : ∀ e ∈ plan.initial, ∃ f ∈ s.fieldList, f.name = e.1 ∧
    (f.isIsolated ∧ e.2 = f.placeholder ∨ f.isUnmapped)

/-- What a plan fetches under the name of a field is what the field is read as. -/
def FetchesFor (f : SchemaField) (plan : ReadPlan) : Prop :=
  ∀ c ∈ plan.columns, c.label = f.name →
    f.isIsolated = false ∧ f.isUnmapped = false ∧ ∀ path, f.kind = .column path → c.expr = .column path

/-- The columns of a plan under the name of the primary key are that of its field. -/
def KeyColumns (s : Schema) (key : SchemaField) (plan : ReadPlan) : Prop :=
  ∀ c ∈ plan.columns, c.label = s.pkName → ∃ path, key.kind = .column path ∧ c.expr = .column path

/-- What a plan gains by one more field. -/
theorem addField_cases {m : Model} {plan' : ReadPlan} (h : addField reg m sliced now plan f = .ok plan') :
    (∃ e, (∀ path, f.kind = .column path → e = .column path) ∧ f.isIsolated = false ∧
      f.isUnmapped = false ∧ plan' = { plan with columns := plan.columns ++ [⟨f.name, e⟩] }) ∨
    (f.isIsolated ∧ plan' = { plan with
      isolated := plan.isolated ++ [f], initial := plan.initial.insert f.name f.placeholder }) ∨
    (f.isUnmapped ∧ ∃ v computed, (∀ g ∈ computed, g = f) ∧ plan' = { plan with
      computed := plan.computed ++ computed, initial := plan.initial.insert f.name v }) := by
  unfold addField at h
  rw [SchemaField.isIsolated, SchemaField.isUnmapped]
  split at h
  · rename_i path hkind
    cases h
    refine .inl ⟨.column path, ?_, by rw [hkind], by rw [hkind], rfl⟩
    rintro path' hpath
    rw [hkind] at hpath
    cases hpath
    rfl
  · rename_i e hkind
    obtain ⟨e', _, h⟩ := Outcome.bind_eq_ok.mp h
    cases h
    refine .inl ⟨e', ?_, by rw [hkind], by rw [hkind], rfl⟩
    rintro path hpath
    rw [hkind] at hpath
    cases hpath
  · rename_i how hkind
    cases h
    exact .inr (.inl ⟨by rw [hkind], rfl⟩)
  · rename_i hkind
    split at h
    · cases h
      exact .inr (.inr ⟨by rw [hkind], .null, [f], fun g hg => List.mem_singleton.mp hg, rfl⟩)
    · cases h
      refine .inr (.inr ⟨by rw [hkind], (f.defaultAt now).getD .null, [], by simp, ?_⟩)
      rw [List.append_nil]

theorem fromFields_addField {m : Model} {plan' : ReadPlan} (hf : f ∈ s.fieldList) (hplan : plan.FromFields s)
    (h : addField reg m sliced now plan f = .ok plan') : plan'.FromFields s := by
  have hput : ∀ v : Value, (f.isIsolated ∧ v = f.placeholder ∨ f.isUnmapped) →
      ∀ e ∈ plan.initial.insert f.name v, ∃ g ∈ s.fieldList, g.name = e.1 ∧
        (g.isIsolated ∧ e.2 = g.placeholder ∨ g.isUnmapped) := by
    intro v hv e he
    rcases mem_insertEntry he with rfl | he
    · exact ⟨f, hf, rfl, hv⟩
    · exact hplan.initial e he
  rcases addField_cases h with ⟨e, _, _, _, rfl⟩ | ⟨hisolated, rfl⟩ | ⟨hunmapped, v, computed, hsame, rfl⟩
  · exact ⟨hplan.computed, hplan.isolated, hplan.initial⟩
  · refine ⟨hplan.computed, fun g hg => ?_, hput _ (.inl ⟨hisolated, rfl⟩)⟩
    rcases List.mem_append.mp hg with hg | hg
    · exact hplan.isolated g hg
    · obtain rfl := List.mem_singleton.mp hg
      exact ⟨hf, hisolated⟩
  · refine ⟨fun g hg => ?_, hplan.isolated, hput v (.inr hunmapped)⟩
    rcases List.mem_append.mp hg with hg | hg
    · exact hplan.computed g hg
    · obtain rfl := hsame g hg
      exact ⟨hf, hunmapped⟩

theorem isIsolated_eq_false_of_isUnmapped {f : SchemaField} (h : f.isUnmapped) : f.isIsolated = false := by
  rw [SchemaField.isUnmapped] at h
  rw [SchemaField.isIsolated]
  cases hkind : f.kind <;> simp [hkind] at h ⊢

/-- No value that is computed bears the name of an isolated field. -/
theorem FromFields.name_ne_of_isolated (hnames : (s.fieldList.map (·.name)).Nodup) (hplan : plan.FromFields s)
    (hf : f ∈ s.fieldList) (hisolated : f.isIsolated) : ∀ g ∈ plan.computed, g.name ≠ f.name := by
  intro g hg hname
  obtain ⟨hmem, hunmapped⟩ := hplan.computed g hg
  obtain rfl := List.inj_on_of_nodup_map hnames hmem hf hname
  rw [isIsolated_eq_false_of_isUnmapped hunmapped] at hisolated
  cases hisolated

/-- An isolated field starts with its placeholder. -/
theorem FromFields.eq_placeholder (hnames : (s.fieldList.map (·.name)).Nodup) (hplan : plan.FromFields s)
    (hf : f ∈ s.fieldList) (hisolated : f.isIsolated) : ∀ e ∈ plan.initial, e.1 = f.name → e.2 = f.placeholder := by
  intro e he hname
  obtain ⟨g, hg, hgname, hvalue⟩ := hplan.initial e he
  obtain rfl := List.inj_on_of_nodup_map hnames hg hf (hgname.trans hname)
  rcases hvalue with ⟨_, hvalue⟩ | hunmapped
  · exact hvalue
  · rw [isIsolated_eq_false_of_isUnmapped hunmapped] at hisolated
    cases hisolated

variable (hkey : s.KeyField reg key)
include hkey

/-- The field for the primary key is not left unmapped. -/
theorem isUnmapped_key : key.isUnmapped = false := by
  rw [SchemaField.isUnmapped]
  rcases hkey.kind_cases with ⟨path, _, hkind, _⟩ | ⟨target, link, value, hkind⟩
  · rw [hkind]
  · rw [hkind]

/-- No value that is computed bears the name of the key. -/
theorem FromFields.name_ne_key (hplan : plan.FromFields s) : ∀ f ∈ plan.computed, f.name ≠ s.pkName := by
  intro f hf hname
  obtain ⟨hmem, hunmapped⟩ := hplan.computed f hf
  rw [hkey.only f hmem hname, isUnmapped_key hkey] at hunmapped
  cases hunmapped

/-- What stands under the name of the key from the start is the placeholder of a key that is isolated. -/
theorem FromFields.initial_key (hplan : plan.FromFields s) :
    ∀ e ∈ plan.initial, e.1 = s.pkName → key.isIsolated ∧ e.2 = key.placeholder := by
  intro e he hname
  obtain ⟨f, hf, hfname, hvalue⟩ := hplan.initial e he
  obtain rfl := hkey.only f hf (hfname.trans hname)
  rcases hvalue with hvalue | hunmapped
  · exact hvalue
  · rw [isUnmapped_key hkey] at hunmapped
    cases hunmapped

omit hkey in
/-- One more field is fetched under its own name. -/
theorem fetchesFor_addField {m : Model} {g : SchemaField} {plan' : ReadPlan} (honly : g.name = f.name → g = f)
    (hplan : plan.FetchesFor f) (h : addField reg m sliced now plan g = .ok plan') : plan'.FetchesFor f := by
  rcases addField_cases h with ⟨e, hcolumn, hisolated, hunmapped, rfl⟩ | ⟨_, rfl⟩ | ⟨_, v, computed, _, rfl⟩
  · intro c hc hname
    rcases List.mem_append.mp hc with hc | hc
    · exact hplan c hc hname
    · obtain rfl := List.mem_singleton.mp hc
      obtain rfl := honly hname
      exact ⟨hisolated, hunmapped, hcolumn⟩
  · exact hplan
  · exact hplan

theorem FetchesFor.keyColumns (hplan : plan.FetchesFor key) : plan.KeyColumns s key := by
  intro c hc hname
  obtain ⟨hisolated, _, hcolumn⟩ := hplan c hc (hname.trans hkey.name.symm)
  rcases hkey.kind_cases with ⟨path, _, hkind, _⟩ | ⟨target, link, value, hkind⟩
  · exact ⟨path, hkind, hcolumn path hkind⟩
  · rw [SchemaField.isIsolated, hkind] at hisolated
    cases hisolated

omit hkey in
theorem output_addField {m : Model} {plan' : ReadPlan} (h : addField reg m sliced now plan f = .ok plan') :
    plan'.output = plan.output := by
  rcases addField_cases h with ⟨_, _, _, _, rfl⟩ | ⟨_, rfl⟩ | ⟨_, _, _, _, rfl⟩ <;> rfl

/-- The primary key is always asked for. -/
theorem mem_requested : key ∈ requested s ctx := by
  refine List.mem_filter.mpr ⟨hkey.mem, ?_⟩
  rw [hkey.isPrimaryKey, Context.inScope]
  rfl

/-- A column that fetches a forced expression under its name. -/
def Forces (reg : Registry) (m : Model) (sliced : Bool) (e : String × Expression) (c : SelectColumn) : Prop :=
  c.label = e.1 ∧ prepare reg m sliced e.2 = .ok c.expr

omit hkey in
theorem labels_of_forces {m : Model} {forced : List (String × Expression)} {columns : List SelectColumn}
    (h : List.Forall₂ (Forces reg m sliced) forced columns) : columns.map SelectColumn.label = forced.map Prod.fst := by
  induction h with
  | nil => rfl
  | cons hlabel _ ih => rw [List.map_cons, List.map_cons, ih, hlabel.1]

omit hkey in
/-- Forced expressions are fetched and put out, and nothing else. -/
theorem foldlM_addForced {m : Model} {forced : List (String × Expression)} {plan' : ReadPlan}
    (h : forced.foldlM (addForced reg m sliced) plan = .ok plan') :
    ∃ more : List SelectColumn, List.Forall₂ (Forces reg m sliced) forced more ∧ plan' = { plan with
      columns := plan.columns ++ more, output := plan.output ++ forced.map Prod.fst } := by
  induction forced generalizing plan with
  | nil =>
      cases h
      exact ⟨[], .nil, by simp⟩
  | cons e rest ih =>
      rw [List.foldlM_cons] at h
      obtain ⟨middle, hmiddle, h⟩ := Outcome.bind_eq_ok.mp h
      obtain ⟨value, hvalue, hmiddle⟩ := Outcome.bind_eq_ok.mp hmiddle
      cases hmiddle
      obtain ⟨more, hmore, rfl⟩ := ih h
      exact ⟨⟨e.1, value⟩ :: more, .cons ⟨rfl, hvalue⟩ hmore, by simp⟩

/-- What is in a plan that is made: the names of its rows, the column of the primary key, and a value to
start with for every isolated field that is asked for. -/
structure Made (s : Schema) (key : SchemaField) (ctx : Context) (plan : ReadPlan) : Prop
    extends plan.FromFields s where
  output : plan.output = (requested s ctx).map (·.name) ++ ctx.forced.map Prod.fst
  columns : s.pkName ∉ ctx.forced.map Prod.fst → plan.KeyColumns s key
  fetched : key.isIsolated = false → ∃ c ∈ plan.columns, c.label = s.pkName
  kept : ∀ f ∈ requested s ctx, f.isIsolated → f.name ∈ plan.initial.map Prod.fst

omit hkey in
/-- A field that is selected with the row is fetched by a plan that has it. -/
theorem exists_column_of_addFields {m : Model} {fields : List SchemaField} {plan' : ReadPlan}
    (hdirect : f.isIsolated = false) (hmapped : f.isUnmapped = false) (hmem : f ∈ fields)
    (h : fields.foldlM (addField reg m sliced now) plan = .ok plan') : ∃ c ∈ plan'.columns, c.label = f.name := by
  refine Outcome.foldlM_reaches (P := fun p => ∃ c ∈ p.columns, c.label = f.name)
    (fun g _ _ _ hp hstep => ?_) hmem (fun _ _ hstep => ?_) h
  · obtain ⟨c, hc, hname⟩ := hp
    rcases addField_cases hstep with ⟨_, _, _, _, rfl⟩ | ⟨_, rfl⟩ | ⟨_, _, _, _, rfl⟩
    · exact ⟨c, List.mem_append_left _ hc, hname⟩
    · exact ⟨c, hc, hname⟩
    · exact ⟨c, hc, hname⟩
  · rcases addField_cases hstep with ⟨_, _, _, _, rfl⟩ | ⟨hisolated, _⟩ | ⟨hunmapped, _⟩
    · exact ⟨_, List.mem_append_right _ (List.mem_singleton_self _), rfl⟩
    · rw [hdirect] at hisolated
      cases hisolated
    · rw [hmapped] at hunmapped
      cases hunmapped

omit hkey in
/-- A field that leads to other rows has an initial value in a plan that has it. -/
theorem mem_initial_of_addFields {m : Model} {fields : List SchemaField} {plan' : ReadPlan} (hisolated : f.isIsolated)
    (hmem : f ∈ fields) (h : fields.foldlM (addField reg m sliced now) plan = .ok plan') :
    f.name ∈ plan'.initial.map Prod.fst := by
  refine Outcome.foldlM_reaches (P := fun p => f.name ∈ p.initial.map Prod.fst)
    (fun f _ _ _ hp hstep => ?_) hmem (fun _ _ hstep => ?_) h
  · rcases addField_cases hstep with ⟨_, _, _, _, rfl⟩ | ⟨_, rfl⟩ | ⟨_, _, _, _, rfl⟩
    · exact hp
    · exact mem_keys_insertEntry.mpr (.inr hp)
    · exact mem_keys_insertEntry.mpr (.inr hp)
  · rcases addField_cases hstep with ⟨_, _, hdirect, _, rfl⟩ | ⟨_, rfl⟩ | ⟨_, _, _, _, rfl⟩
    · rw [hisolated] at hdirect
      cases hdirect
    · exact mem_keys_insertEntry.mpr (.inl rfl)
    · exact mem_keys_insertEntry.mpr (.inl rfl)

omit hkey in
/-- A plan that is made has the fields that are asked for, with others of the schema, and then what is forced. -/
theorem exists_of_make (h : make reg s ctx sliced now = .ok plan) :
    ∃ (fields : List SchemaField) (middle : ReadPlan) (more : List SelectColumn),
      (∀ f ∈ fields, f ∈ s.fieldList) ∧ (∀ f ∈ requested s ctx, f ∈ fields) ∧
      fields.foldlM (addField reg s.model sliced now) ⟨[], [], [], [], (requested s ctx).map (·.name)⟩ = .ok middle ∧
      more.map SelectColumn.label = ctx.forced.map Prod.fst ∧ plan = { middle with
        columns := middle.columns ++ more, output := middle.output ++ ctx.forced.map Prod.fst } := by
  unfold make at h
  obtain ⟨middle, hmiddle, hforced⟩ := Outcome.bind_eq_ok.mp h
  obtain ⟨more, hmore, hplan⟩ := foldlM_addForced hforced
  refine ⟨_, middle, more, fun f hf => (List.mem_filter.mp hf).1, fun f hf => ?_, hmiddle, labels_of_forces hmore, hplan⟩
  refine List.mem_filter.mpr ⟨(List.mem_filter.mp hf).1, List.contains_iff_mem.mpr ?_⟩
  exact List.mem_append_left _ (List.mem_map_of_mem hf)

omit hkey in
theorem fromFields_of_make (h : make reg s ctx sliced now = .ok plan) : plan.FromFields s := by
  obtain ⟨fields, middle, _, hfields, _, hmiddle, _, rfl⟩ := exists_of_make h
  have hplan : middle.FromFields s :=
    Outcome.foldlM_keeps (fun f hf _ _ hp hstep => fromFields_addField (hfields f hf) hp hstep)
      ⟨by simp, by simp, by simp⟩ hmiddle
  exact ⟨hplan.computed, hplan.isolated, hplan.initial⟩

theorem made_of_make (h : make reg s ctx sliced now = .ok plan) : plan.Made s key ctx := by
  have hplan := fromFields_of_make h
  obtain ⟨fields, middle, more, hfields, hasked, hmiddle, hlabels, rfl⟩ := exists_of_make h
  have hkeyMem := hasked key (mem_requested hkey)
  have hcolumns : middle.KeyColumns s key := FetchesFor.keyColumns hkey <|
    Outcome.foldlM_keeps (fun f hf _ _ hp hstep => fetchesFor_addField
      (fun hname => hkey.only f (hfields f hf) (hname.trans hkey.name)) hp hstep) (by simp [FetchesFor]) hmiddle
  have houtput : middle.output = (requested s ctx).map (·.name) :=
    Outcome.foldlM_keeps (P := fun p => p.output = (requested s ctx).map (·.name))
      (fun f _ _ _ hp hstep => (output_addField hstep).trans hp) rfl hmiddle
  have hkept : ∀ f ∈ requested s ctx, f.isIsolated → f.name ∈ middle.initial.map Prod.fst :=
    fun f hf hisolated => mem_initial_of_addFields hisolated (hasked f hf) hmiddle
  refine { computed := hplan.computed, isolated := hplan.isolated, initial := hplan.initial
           output := congrArg (· ++ _) houtput, columns := fun hnone => ?_
           fetched := fun hdirect => ?_, kept := hkept }
  · intro c hc hname
    rcases List.mem_append.mp hc with hc | hc
    · exact hcolumns c hc hname
    · rw [← hlabels, ← hname] at hnone
      exact absurd (List.mem_map_of_mem hc) hnone
  · obtain ⟨c, hc, hname⟩ := exists_column_of_addFields hdirect (isUnmapped_key hkey) hkeyMem hmiddle
    exact ⟨c, List.mem_append_left _ hc, hname.trans hkey.name⟩

omit hkey in
/-- A column that is asked for is fetched by its path, and nothing else is under its name. -/
theorem columns_of_make (hnames : (s.fieldList.map (·.name)).Nodup) (h : make reg s ctx sliced now = .ok plan)
    (hf : f ∈ requested s ctx) {path : String} (hkind : f.kind = .column path)
    (hforced : f.name ∉ ctx.forced.map Prod.fst) :
    (∃ c ∈ plan.columns, c.label = f.name) ∧ ∀ c ∈ plan.columns, c.label = f.name → c.expr = .column path := by
  obtain ⟨fields, middle, more, hfields, hasked, hmiddle, hlabels, rfl⟩ := exists_of_make h
  have hmem := hasked f hf
  have hcolumns : middle.FetchesFor f := Outcome.foldlM_keeps (fun g hg _ _ hp hstep => fetchesFor_addField
    (fun hname => List.inj_on_of_nodup_map hnames (hfields g hg) (hfields f hmem) hname) hp hstep)
    (by simp [FetchesFor]) hmiddle
  obtain ⟨c, hc, hname⟩ := exists_column_of_addFields (by rw [SchemaField.isIsolated, hkind])
    (by rw [SchemaField.isUnmapped, hkind]) hmem hmiddle
  refine ⟨⟨c, List.mem_append_left _ hc, hname⟩, fun c hc hname => ?_⟩
  rcases List.mem_append.mp hc with hc | hc
  · exact (hcolumns c hc hname).2.2 path hkind
  · rw [← hlabels, ← hname] at hforced
    exact absurd (List.mem_map_of_mem hc) hforced

/-! ## The keys of rows -/

omit hkey in
/-- A finished row has the fields that were asked for and the expressions that were forced, in order. -/
theorem names_finish (hplan : plan.Made s key ctx)
    (hnames : ((requested s ctx).map (·.name) ++ ctx.forced.map Prod.fst).Nodup) (row : Record) :
    (plan.finish row).map Prod.fst = (requested s ctx).map (·.name) ++ ctx.forced.map Prod.fst := by
  rw [finish, names_takeOut plan.output _ (by rwa [hplan.output]), hplan.output]
  rfl

omit hkey in
/-- A finished row has the value of the row under a name that was asked for and is not computed, unless
an expression is forced under that name. -/
theorem getD_finish_of_mem (hnames : (s.fieldList.map (·.name)).Nodup) (hplan : plan.Made s key ctx)
    (hf : f ∈ requested s ctx) (hcomputed : ∀ g ∈ plan.computed, g.name ≠ f.name) (row : Record) :
    (plan.finish row).getD f.name =
      if f.name ∈ ctx.forced.map Prod.fst then .null else row.getD f.name := by
  have hrequested : ((requested s ctx).map (·.name)).count f.name = 1 :=
    List.count_eq_one_of_mem (hnames.sublist (List.filter_sublist.map _)) (List.mem_map_of_mem hf)
  have hcount : plan.output.count f.name = 1 + (ctx.forced.map Prod.fst).count f.name := by
    rw [hplan.output, List.count_append, hrequested]
  have hmem : f.name ∈ plan.output := List.count_pos_iff.mp (by omega)
  rw [Record.getD_eq, finish, lookup_takeOut, if_pos hmem, hcount, Option.getD_some, getD_compute hcomputed]
  by_cases hforced : f.name ∈ ctx.forced.map Prod.fst
  · have hpos : 0 < (ctx.forced.map Prod.fst).count f.name := List.count_pos_iff.mpr hforced
    rw [if_pos hforced, if_neg (by omega)]
  · rw [if_neg hforced, List.count_eq_zero.mpr hforced, if_pos rfl]

/-- A finished row has the key of the row, unless the key is forced once more. -/
theorem getD_finish (hnames : (s.fieldList.map (·.name)).Nodup) (hplan : plan.Made s key ctx)
    (row : Record) : (plan.finish row).getD s.pkName =
      if s.pkName ∈ ctx.forced.map Prod.fst then .null else row.getD s.pkName := by
  have hcomputed := hplan.name_ne_key hkey
  rw [← hkey.name] at hcomputed ⊢
  exact getD_finish_of_mem hnames hplan (mem_requested hkey) hcomputed row

/-- A prefilled row has the key that was fetched if the key is a column. -/
theorem getD_prefill (hplan : plan.Made s key ctx) (hdirect : key.isIsolated = false) (row : Record) :
    (plan.prefill row).getD s.pkName = row.getD s.pkName := by
  rw [Record.getD_eq, prefill, Record.lookup_extend_of_not_mem row fun e he hname => ?_, Record.getD_eq]
  have hisolated := (hplan.initial_key hkey e he hname).1
  rw [hdirect] at hisolated
  cases hisolated

theorem keys_prefill (hplan : plan.Made s key ctx) (hdirect : key.isIsolated = false) (rows : List Record) :
    (rows.map plan.prefill).map (·.getD s.pkName) = rows.map (·.getD s.pkName) := by
  rw [List.map_map]
  exact List.map_congr_left fun row _ => getD_prefill hkey hplan hdirect row

omit hkey in
/-- A prefilled row has an initial value that stands under one name alone. -/
theorem getD_prefill_of_mem {name : String} {v : Value} (hall : ∀ e ∈ plan.initial, e.1 = name → e.2 = v)
    (hmem : name ∈ plan.initial.map Prod.fst) (row : Record) : (plan.prefill row).getD name = v := by
  rw [Record.getD_eq, prefill, Record.lookup_extend_of_mem row hall (List.mem_map.mp hmem), Option.getD_some]

/-- A prefilled row has an empty key if the key leads to other rows. -/
theorem getD_prefill_isolated (hplan : plan.Made s key ctx) (hisolated : key.isIsolated) (row : Record) :
    (plan.prefill row).getD s.pkName = key.placeholder :=
  getD_prefill_of_mem (fun e he hname => (hplan.initial_key hkey e he hname).2)
    (hkey.name ▸ hplan.kept key (mem_requested hkey) hisolated) row

end ReadPlan

/-! ## Distinct rows -/

theorem not_isPlain_placeholder (f : SchemaField) : f.placeholder.isPlain = false := by
  unfold SchemaField.placeholder
  split <;> rfl

namespace Keyed

variable {α : Type} {g : α → Value} {entries : Keyed α}

/-- Plain keys, none of them twice, drain what stands under them. -/
theorem drain_of_isPlain {ks : List Value} (hnd : ks.Nodup) (hplain : ∀ k ∈ ks, k.isPlain) :
    drain entries ks = ks.map fun k => entries.lookup k := by
  induction ks generalizing entries with
  | nil => rfl
  | cons k rest ih =>
      have hseat : seat entries k = k := seat_of_isPlain (hplain k List.mem_cons_self)
      rw [List.nodup_cons] at hnd
      rw [drain, get?, erase, hseat, List.map_cons, ih hnd.2 fun k' hk' => hplain k' (List.mem_cons_of_mem k hk')]
      refine congrArg (_ :: ·) (List.map_congr_left fun k' hk' => lookup_eraseEntry_ne entries ?_)
      rintro rfl
      exact hnd.1 hk'

/-- What is drained from entries stands in them under its own key, no key twice, and its key is one of
those asked for or equal to one. -/
theorem drain_spec (hnd : (entries.map Prod.fst).Nodup) (hg : ∀ e ∈ entries, g e.2 = e.1)
    (ks : List Value) :
    (((drain entries ks).filterMap id).map g).Nodup ∧
      ∀ a ∈ (drain entries ks).filterMap id, (g a, a) ∈ entries ∧ ∃ k ∈ ks, k = g a ∨ k.equiv (g a) := by
  induction ks generalizing entries with
  | nil => simp [drain]
  | cons k rest ih =>
      have hsub : ∀ e ∈ erase entries k, e ∈ entries ∧ e.1 ≠ seat entries k := by
        intro e he
        obtain ⟨hmem, hne⟩ := List.mem_filter.mp he
        exact ⟨hmem, by simpa using hne⟩
      have hnd' : ((erase entries k).map Prod.fst).Nodup := hnd.sublist (List.filter_sublist.map _)
      obtain ⟨hrest, hall⟩ := ih hnd' fun e he => hg e (hsub e he).1
      have hlater : ∀ a ∈ (drain (erase entries k) rest).filterMap id,
          (g a, a) ∈ entries ∧ ∃ k' ∈ k :: rest, k' = g a ∨ k'.equiv (g a) := by
        intro a ha
        obtain ⟨hmem, k', hk', heq⟩ := hall a ha
        exact ⟨(hsub _ hmem).1, k', List.mem_cons_of_mem k hk', heq⟩
      rw [drain]
      cases hfound : get? entries k with
      | none =>
          rw [List.filterMap_cons_none rfl]
          exact ⟨hrest, hlater⟩
      | some a =>
          -- What is found is taken out, so its key is not met again.
          have hentry : (seat entries k, a) ∈ entries := (lookup_eq_some_iff_mem hnd).mp hfound
          have hseat : g a = seat entries k := hg _ hentry
          rw [List.filterMap_cons_some (f := id) (a := some a) rfl, List.map_cons, List.nodup_cons]
          refine ⟨⟨fun hmem => ?_, hrest⟩, fun b hb => ?_⟩
          · obtain ⟨b, hb, hsame⟩ := List.mem_map.mp hmem
            exact (hsub _ (hall b hb).1).2 (hsame.trans hseat)
          · rcases List.mem_cons.mp hb with rfl | hb
            · refine ⟨hseat ▸ hentry, k, List.mem_cons_self, ?_⟩
              rw [hseat]
              exact (seat_eq_or_sole entries k).imp Eq.symm And.right
            · exact hlater b hb

end Keyed

/-- The first rows of their keys, in order, under their keys. -/
def firstRows (pkName : String) (rows : List Record) : Keyed Record :=
  rows.foldl (fun (acc : Keyed Record) row =>
    let pk := row.getD pkName
    if (acc.lookup pk).isSome then acc else acc ++ [(pk, row)]) []

/-- The keys of first rows are those of all rows, each once. -/
theorem keys_firstRows (pkName : String) (rows : List Record) :
    (firstRows pkName rows).map Prod.fst = distinctOf (rows.map (·.getD pkName)) := by
  rw [distinctOf, List.foldl_map, firstRows, ← List.foldl_hom (List.map Prod.fst)]
  · rfl
  · intro acc row
    have hknown : (acc.lookup (row.getD pkName)).isSome = (acc.map Prod.fst).contains (row.getD pkName) := by
      rw [Bool.eq_iff_iff, lookup_isSome_iff_mem_keys, List.contains_iff_mem]
    simp only [hknown]
    split <;> simp

theorem firstRows_spec (pkName : String) (rows : List Record) :
    ((firstRows pkName rows).map Prod.fst).Nodup ∧
      ∀ e ∈ firstRows pkName rows, e.2.getD pkName = e.1 ∧ e.2 ∈ rows := by
  refine ⟨keys_firstRows pkName rows ▸ nodup_distinctOf _, ?_⟩
  refine List.foldlRecOn (motive := fun acc : Keyed Record => ∀ e ∈ acc, e.2.getD pkName = e.1 ∧ e.2 ∈ rows) rows _
    (by simp) fun acc hacc row hrow e he => ?_
  simp only at he
  split at he
  · exact hacc e he
  · rcases List.mem_append.mp he with he | he
    · exact hacc e he
    · obtain rfl := List.mem_singleton.mp he
      exact ⟨rfl, hrow⟩

theorem distinctRows_eq (order : Option (List Value)) (pkName : String) (rows : List Record) :
    distinctRows order pkName rows = match order with
      | some pks => (Keyed.drain (firstRows pkName rows) pks).filterMap id
      | none => (firstRows pkName rows).map Prod.snd := rfl

/-- Distinct rows are some of the rows, no key twice; if keys are asked for, each key is one of them or
equal to one. -/
theorem distinctRows_spec (order : Option (List Value)) (pkName : String) (rows : List Record) :
    ((distinctRows order pkName rows).map (·.getD pkName)).Nodup ∧
      ∀ row ∈ distinctRows order pkName rows, row ∈ rows ∧
        ∀ pks ∈ order, ∃ k ∈ pks, k = row.getD pkName ∨ k.equiv (row.getD pkName) := by
  obtain ⟨hnd, hfirst⟩ := firstRows_spec pkName rows
  rw [distinctRows_eq]
  cases order with
  | none =>
      have hkeys : ((firstRows pkName rows).map Prod.snd).map (·.getD pkName) =
          (firstRows pkName rows).map Prod.fst := by
        rw [List.map_map]
        exact List.map_congr_left fun e he => (hfirst e he).1
      refine ⟨hkeys ▸ hnd, fun row hrow => ⟨?_, by simp⟩⟩
      obtain ⟨e, he, rfl⟩ := List.mem_map.mp hrow
      exact (hfirst e he).2
  | some pks =>
      obtain ⟨hdistinct, hall⟩ := Keyed.drain_spec (g := (·.getD pkName)) hnd
        (fun e he => (hfirst e he).1) pks
      refine ⟨hdistinct, fun row hrow => ⟨(hfirst _ (hall row hrow).1).2, ?_⟩⟩
      rintro _ ⟨⟩
      exact (hall row hrow).2

/-- Rows that are asked for by plain keys, none of them twice, come in the order of these keys. -/
theorem keys_distinctRows {wanted : List Value} (hnd : wanted.Nodup) (hplain : ∀ k ∈ wanted, k.isPlain)
    (pkName : String) (rows : List Record) :
    (distinctRows (some wanted) pkName rows).map (·.getD pkName) =
      wanted.filter (· ∈ rows.map (·.getD pkName)) := by
  have hkeys : ∀ k, k ∈ rows.map (·.getD pkName) ↔ ((firstRows pkName rows).lookup k).isSome := by
    intro k
    rw [lookup_isSome_iff_mem_keys, keys_firstRows, mem_distinctOf]
  have hrow : ∀ k row, (firstRows pkName rows).lookup k = some row → row.getD pkName = k :=
    fun k row h => ((firstRows_spec pkName rows).2 _ (mem_of_lookup h)).1
  simp only [distinctRows_eq, Keyed.drain_of_isPlain hnd hplain, hkeys]
  clear hnd hplain
  induction wanted with
  | nil => rfl
  | cons k rest ih =>
      rw [List.map_cons]
      cases hfound : (firstRows pkName rows).lookup k with
      | none => simpa [hfound] using ih
      | some row => simpa [hfound, hrow k row hfound] using ih

end RecordMapper
