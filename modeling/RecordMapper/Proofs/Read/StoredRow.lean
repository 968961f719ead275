import RecordMapper.Proofs.Read.Returned
import RecordMapper.Proofs.Schema.Placed

/-!
# A stored row — what a read for one key returns

A read for the key of a stored row fetches its columns under the names of
their fields. The records of other rows bear other keys, nothing that the
read puts in later has the name of a column, and finishing leaves the
fields that were asked for. So the one row that is returned has the
columns of the stored one. Where no field of the schema is isolated or an
expression, nothing can keep the read from returning it.
-/

namespace RecordMapper

variable {app : Application} {s : Schema} {key f : SchemaField} {ctx : Context} {plan : ReadPlan}
  {rows : List Record} {w : World} {pk v : Value}

/-- A context that leaves no field out and asks for nothing besides. -/
structure Context.Unscoped (ctx : Context) : Prop where
  includes : ctx.includes = none
  excludes : ctx.excludes = none
  forced : ctx.forced = []
  single : ctx.single = false

theorem ReadPlan.mem_requested_of_unscoped (hctx : ctx.Unscoped) (hf : f ∈ s.fieldList) (hread : f.mode.read) :
    f ∈ requested s ctx := by
  refine List.mem_filter.mpr ⟨hf, ?_⟩
  simp [hread, Context.inScope, Context.given?, hctx.includes, hctx.excludes]

/-! ## Values of columns -/

/-- Some rows have a value under a name. -/
def RowsHave (name : String) (v : Value) (rows : List Record) : Prop := ∀ row ∈ rows, row.getD name = v

/-- Putting in what an isolated field looks up leaves the fields that are not isolated. -/
theorem RowsHave.assignField (hnames : (s.fieldList.map (·.name)).Nodup) (hf : f ∈ s.fieldList)
    (hdirect : f.isIsolated = false) (hrows : RowsHave f.name v rows) {put : SchemaField} (hput : put ∈ s.fieldList)
    (hisolated : put.isIsolated) (values : Keyed Value) :
    RowsHave f.name v (RecordMapper.assignField s.pkName put.name values rows) := by
  intro row' hrow'
  obtain ⟨row, hrow, rfl | ⟨e, _, rfl⟩⟩ := mem_assignField hrow'
  · exact hrows _ hrow
  · have hname : f.name ≠ put.name := by
      intro hname
      obtain rfl := List.inj_on_of_nodup_map hnames hf hput hname
      rw [hdirect] at hisolated
      cases hisolated
    rw [Record.getD_eq, Record.lookup_insert_ne row hname, ← Record.getD_eq]
    exact hrows row hrow

/-- Prefilling leaves the columns of a row. -/
theorem ReadPlan.getD_prefill_of_column (hnames : (s.fieldList.map (·.name)).Nodup) (hplan : plan.FromFields s)
    (hf : f ∈ s.fieldList) {path : String} (hkind : f.kind = .column path) (row : Record) :
    (plan.prefill row).getD f.name = row.getD f.name := by
  rw [Record.getD_eq, prefill, Record.lookup_extend_of_not_mem row fun e he hname => ?_, Record.getD_eq]
  obtain ⟨g, hg, hgname, hcases⟩ := hplan.initial e he
  obtain rfl := List.inj_on_of_nodup_map hnames hg hf (hgname.trans hname)
  rcases hcases with ⟨hisolated, _⟩ | hunmapped
  · rw [SchemaField.isIsolated, hkind] at hisolated
    cases hisolated
  · rw [SchemaField.isUnmapped, hkind] at hunmapped
    cases hunmapped

/-- Finishing leaves the columns of a row that were asked for. -/
theorem ReadPlan.getD_finish_of_column (hnames : (s.fieldList.map (·.name)).Nodup) (hplan : plan.Made s key ctx)
    (hforced : ctx.forced = []) (hf : f ∈ requested s ctx) {path : String} (hkind : f.kind = .column path)
    (row : Record) : (plan.finish row).getD f.name = row.getD f.name := by
  have hcomputed : ∀ g ∈ plan.computed, g.name ≠ f.name := by
    intro g hg hname
    obtain ⟨hmem, hunmapped⟩ := hplan.computed g hg
    obtain rfl := List.inj_on_of_nodup_map hnames hmem (List.mem_filter.mp hf).1 hname
    rw [SchemaField.isUnmapped, hkind] at hunmapped
    cases hunmapped
  rw [getD_finish_of_mem hnames hplan hf hcomputed row, hforced]
  exact if_neg List.not_mem_nil

/-- The records that are fetched for one plain key are those of its row, and have the value of each column. -/
theorem Application.rowsHave_fetched (hkey : s.KeyField app.registry key) (hmade : plan.Made s key ctx)
    (hforced : s.pkName ∉ ctx.forced.map Prod.fst) (hdirect : key.isIsolated = false) (hplain : pk.isPlain)
    {label : String} {e : Expression} (hcolumn : ∃ c ∈ plan.columns, c.label = label)
    (hall : ∀ c ∈ plan.columns, c.label = label → c.expr = e) {st : Store}
    (hvalue : Store.columnCells app.registry st s.model (fun _ => none) pk e = .ok [v]) {fetched : List Record}
    (hfetch : st.fetch app.registry ((Queryset.all s.model).pkIn [pk]) plan.columns = .ok fetched) :
    RowsHave label v (distinctRows (some [pk]) s.pkName fetched) := by
  intro row hrow
  obtain ⟨hmem, hwanted⟩ := (distinctRows_spec (some [pk]) s.pkName fetched).2 row hrow
  obtain ⟨k, hk, hequal⟩ := hwanted _ rfl
  obtain rfl := List.mem_singleton.mp hk
  have hrowKey : row.getD s.pkName = k := (hequal.elim id (Value.equiv_iff_of_isPlain_left hplain).mp).symm
  obtain ⟨_, _, own, _, _, records, hrecords, hown⟩ := Store.exists_of_mem_fetch hfetch hmem
  -- A record has the key of its row, so this is one of the row that was asked for.
  obtain rfl : own = k :=
    (getD_of_mem_rowRecords hkey hmade hforced (fun _ => rfl) hdirect hrecords hown).symm.trans hrowKey
  obtain ⟨v', hv', hlookup⟩ := Store.lookup_of_mem_rowRecords hrecords hall hcolumn hvalue row hown
  rw [Record.getD_eq, hlookup, List.mem_singleton.mp hv']
  rfl

namespace World

variable {decls : List ModelDecl} {cat : Catalog} {together : Bool} {g : Guard}

/-- A read for the key of a stored row returns one row: it has that key, and under the name of every column that
is asked for what the stored row has in it. -/
theorem readRows_stored (hreg : Registry.build decls = .ok w.registry)
    (hdots : ∀ m ∈ w.registry.models, '.' ∉ m.pkName.toList) (hs : s.Declared w.registry) (hplain : pk.isPlain)
    (hsingle : ctx.single = false) (hforced : ctx.forced = [])
    (hcolumn : ∀ key ∈ s.fieldList, key.name = s.pkName → key.isIsolated = false)
    (hstands : pk ∈ (w.database (ctx.database.getD w.main)).store.keys s.model)
    (h : (w.readRows cat together s (.key pk) ctx g).1.1 = .ok rows) :
    ∃ row, rows = [row] ∧ row.getD s.pkName = pk ∧ ∀ f ∈ ReadPlan.requested s ctx, ∀ path p,
      f.kind = .column path → w.registry.resolvePath s.model path = .ok p → p.before = [] →
      p.last.field.isConcrete → row.lookup f.name = some
        (Store.cell w.registry (w.database (ctx.database.getD w.main)).store s.model pk p.last.field.name) := by
  have hsame : w.readRows cat together s (.key pk) ctx g = w.readRows cat together s (.keys [pk]) ctx g := rfl
  rw [hsame] at h
  have hkeys := Registry.keysFound_of_build hreg hdots
  obtain ⟨key, hkey⟩ := hs.exists_keyField hkeys
  have hnames := hs.nodup_names
  have hdirect := hcolumn key hkey.mem hkey.name
  have hnone : ∀ name, name ∉ ctx.forced.map Prod.fst := fun name => by
    rw [hforced]
    exact List.not_mem_nil
  have hvalid : ∀ k ∈ [pk], k = .null ∨ k.isPlain := List.forall_mem_singleton.mpr (.inr hplain)
  have hstored := (keys_of_readRows hkeys hs hkey hvalid hsingle (hnone _) h).2 hdirect
  have houtput := fields_of_readRows hkeys hs (by rw [hforced]; exact List.nodup_nil) (fun f _ => hnone f.name) h
  -- One row comes back, since the key is stored.
  have hone : rows.map (·.getD s.pkName) = [pk] := by
    have hgiven : given [pk] = [pk] := by simp [given, Value.isNull_of_isPlain hplain]
    have hdistinct : distinctOf [pk] = [pk] := rfl
    rw [hstored, Store.storedAmong, hgiven, hdistinct]
    simp [hstands]
  obtain ⟨row, rfl⟩ : ∃ row, rows = [row] := List.length_eq_one_iff.mp (by simpa using congrArg List.length hone)
  have hpk : row.getD s.pkName = pk := by simpa using hone
  refine ⟨row, rfl, hpk, fun f hf path p hkind hp hbefore hconcrete => ?_⟩
  suffices hvalue : row.getD f.name = Store.cell w.registry (w.database (ctx.database.getD w.main)).store s.model pk
      p.last.field.name by
    have hthere : f.name ∈ row.map Prod.fst := by
      rw [(houtput row (List.mem_singleton_self row)).1]
      exact List.mem_append_left _ (List.mem_map_of_mem hf)
    obtain ⟨v, hv⟩ := Option.isSome_iff_exists.mp (lookup_isSome_iff_mem_keys.mpr hthere)
    rw [hv, ← hvalue, Record.getD_eq, hv, Option.getD_some]
  have hmem := (List.mem_filter.mp hf).1
  have hfdirect : f.isIsolated = false := by rw [SchemaField.isIsolated, hkind]
  obtain ⟨prepared, hprepared, hrows⟩ := readRows_eq_ok h
  rcases hrows with ⟨_, hempty⟩ | ⟨plan, before, read, m, rfl, hresolved⟩
  · cases hempty
  · have hplan := (Application.made_of_prepare hkey hprepared).1
    have hkeysBefore := Application.keys_of_prepare hkey hprepared
    obtain ⟨request, now, fetched, hrequest, hmake, rfl, _, hfetched⟩ := Application.exists_of_prepare hprepared
    obtain ⟨hcolumns, hall⟩ := ReadPlan.columns_of_make hnames hmake hf hkind (hnone f.name)
    have hrequest' : request = ⟨(Queryset.all s.model).pkIn [pk], some [pk]⟩ := by
      have hgiven : [pk].filter (fun v => !v.isNull) = [pk] := by simp [Value.isNull_of_isPlain hplain]
      simpa [Schema.request?, Schema.requestOfKeys, hgiven, hsingle, distinctOf] using hrequest.symm
    subst hrequest'
    obtain ⟨name, hdatabase, _, hfetch⟩ := hfetched.resolve_left fun hempty => absurd hempty.1 Bool.false_ne_true
    have hname : name = ctx.database.getD w.main := Application.databaseOf_all hdatabase
    rw [← hname]
    generalize (w.database name).store = st at hfetch ⊢
    have hvalue : Store.columnCells w.registry st s.model (fun _ => none) pk (.column path) =
        .ok [Store.cell w.registry st s.model pk p.last.field.name] :=
      Store.columnCells_of_pathValues rfl (Store.pathValues_direct hp hbefore hconcrete)
    have hfirst := @Application.rowsHave_fetched (w.application cat) s key ctx plan pk _ hkey hplan (hnone _) hdirect
      hplain _ _ hcolumns hall st hvalue _ hfetch
    generalize Store.cell w.registry st s.model pk p.last.field.name = v at hfirst ⊢
    have hprefilled : RowsHave f.name v ((distinctRows (some [pk]) s.pkName fetched).map plan.prefill) := by
      refine List.forall_mem_map.mpr fun row hrow => ?_
      rw [ReadPlan.getD_prefill_of_column hnames hplan.toFromFields hmem hkind]
      exact hfirst row hrow
    have hput : ∀ c, Collectible s key c → ∀ rows look, c.field.LooksUp look → RowsHave f.name v rows →
        RowsHave f.name v (assignField s.pkName c.field.name (c.field.shape c.links look) rows) :=
      fun c hc rows look _ hrows => hrows.assignField hnames hmem hfdirect hc.mem hc.isolated _
    obtain ⟨rows', hrows', hhave⟩ := Journaling.resolveRows_keeps hkey hplan hkeysBefore hput hprefilled hresolved
    obtain ⟨row', hrow', rfl⟩ : ∃ row' ∈ rows', row = plan.finish row' := by
      have hin : row ∈ rows'.map plan.finish := hrows' ▸ List.mem_singleton_self row
      obtain ⟨row', hrow', hfinish⟩ := List.mem_map.mp hin
      exact ⟨row', hrow', hfinish.symm⟩
    rw [ReadPlan.getD_finish_of_column hnames hplan hforced hf hkind]
    exact hhave row' hrow'

end World

/-! ## Reads that succeed -/

namespace Store

variable {reg : Registry} {st : Store} {m : Model}

/-- Steps that lead to one value at most can be taken, from a column or where the other side is there. -/
theorem exists_mapM_step {f : Field} (hsingle : f.type.isMany = false)
    (h : f.isConcrete ∨ ∃ t, reg.related m f = .ok t) (keys : List Value) :
    ∃ reached, keys.mapM (step reg st m f) = .ok reached := by
  have hstep : ∀ k, ∃ vs, step reg st m f k = .ok vs := by
    rcases h with hconcrete | ⟨t, hrelated⟩
    · exact fun k => ⟨_, step_of_isConcrete hconcrete k⟩
    · intro k
      unfold Registry.related at hrelated
      rw [step]
      cases ht : f.type with
      | reverseOneToOne owner field =>
          rw [ht] at hrelated
          have hmodel : reg.model owner = .ok t := hrelated
          exact ⟨_, by simp only [hmodel]; rfl⟩
      | manyToMany | reverseForeignKey | reverseManyToMany =>
          rw [ht] at hsingle
          cases hsingle
      | _ => exact ⟨_, rfl⟩
  obtain ⟨reached, hreached, _⟩ := Outcome.exists_mapM (l := keys) fun k _ => (hstep k).imp fun _ hvs => ⟨hvs, trivial⟩
  exact ⟨reached, hreached⟩

/-- A resolved path to one stored value can be followed from any rows. -/
theorem exists_follow {names : List String} {start whole : String} {p : ResolvedPath}
    (hp : reg.resolveNames start whole m names = .ok p) (hsingle : p.isSingle) (hconcrete : p.last.field.isConcrete)
    (keys : List Value) : ∃ vs, follow reg st start whole m keys names = .ok vs := by
  induction names generalizing m p keys with
  | nil => cases hp
  | cons name rest ih =>
      cases keys with
      | nil => exact ⟨[], by rw [follow]⟩
      | cons k keys =>
          have hmany : ∀ s ∈ p.steps, s.field.type.isMany = false := by
            simpa [ResolvedPath.isSingle, List.all_eq_true] using hsingle
          cases rest with
          | nil =>
              obtain ⟨f, hf, hp⟩ := Outcome.bind_eq_ok.mp hp
              cases hp
              obtain ⟨reached, hreached⟩ : ∃ reached, (k :: keys).mapM (step reg st m f) = .ok reached :=
                exists_mapM_step (hmany _ (List.mem_singleton_self _)) (.inl hconcrete) _
              simp only [follow, hf, Outcome.ok_bind, hreached]
              exact ⟨_, rfl⟩
          | cons next rest =>
              rw [Registry.resolveNames] at hp
              · obtain ⟨f, hf, hp⟩ := Outcome.bind_eq_ok.mp hp
                split at hp
                · rename_i hrelation
                  obtain ⟨t, ht, hp⟩ := Outcome.bind_eq_ok.mp hp
                  obtain ⟨tail, htail, hp⟩ := Outcome.bind_eq_ok.mp hp
                  cases hp
                  obtain ⟨reached, hreached⟩ : ∃ reached, (k :: keys).mapM (step reg st m f) = .ok reached :=
                    exists_mapM_step (hmany _ List.mem_cons_self) (.inr ⟨t, ht⟩) _
                  have hrest : tail.isSingle :=
                    List.all_eq_true.mpr fun s hs => by simp [hmany s (List.mem_cons_of_mem _ hs)]
                  simp only [follow, hf, Outcome.ok_bind, hreached, hrelation, if_true, ht]
                  exact ih htail hrest hconcrete _
                · cases hp
              · exact fun h => List.cons_ne_nil next rest h

theorem exists_columnCells {path : String} {p : ResolvedPath} (hp : reg.resolvePath m path = .ok p)
    (hsingle : p.isSingle) (hconcrete : p.last.field.isConcrete) (pk : Value) :
    ∃ cells, columnCells reg st m (fun _ => none) pk (.column path) = .ok cells := by
  unfold Registry.resolvePath at hp
  simp only at hp
  split at hp
  · cases hp
  · obtain ⟨vs, hvalues⟩ : ∃ vs, columnValues reg st m (fun _ => none) pk path = .ok vs :=
      exists_follow hp hsingle hconcrete [pk]
    rw [columnCells, hvalues, Outcome.ok_bind]
    exact ⟨_, rfl⟩

end Store

namespace ReadPlan

variable {reg : Registry} {now : Instant}

theorem exists_make (reg : Registry) (s : Schema) (hforced : ctx.forced = []) (now : Instant) :
    ∃ plan, make reg s ctx false now = .ok plan := by
  have hstep : ∀ (f : SchemaField) (plan : ReadPlan), ∃ plan', addField reg s.model false now plan f = .ok plan' := by
    intro f plan
    unfold addField
    split
    · exact ⟨_, rfl⟩
    · exact ⟨_, rfl⟩
    · exact ⟨_, rfl⟩
    · split <;> exact ⟨_, rfl⟩
  obtain ⟨plan, hplan⟩ := Outcome.exists_foldlM
    (l := s.fieldList.filter fun f => (neededNames (requested s ctx)).contains f.name)
    (fun f _ => hstep f) ⟨[], [], [], [], (requested s ctx).map (·.name)⟩
  exact ⟨plan, by simp only [make, hplan, Outcome.ok_bind, hforced]; rfl⟩

/-- Where no field is an expression, the columns of a plan are those of fields. -/
theorem column_of_mem {sliced : Bool} (hforced : ctx.forced = []) (hfields : ∀ f ∈ s.fieldList, f.isExpression = false)
    (h : make reg s ctx sliced now = .ok plan) :
    ∀ c ∈ plan.columns, ∃ f ∈ s.fieldList, ∃ path, f.kind = .column path ∧ c.expr = .column path := by
  obtain ⟨fields, middle, more, hmem, _, hmiddle, hlabels, rfl⟩ := exists_of_make h
  rw [hforced, List.map_nil, List.map_eq_nil_iff] at hlabels
  subst hlabels
  suffices hcolumns : ∀ c ∈ middle.columns, ∃ f ∈ s.fieldList, ∃ path, f.kind = .column path ∧ c.expr = .column path by
    simpa using hcolumns
  refine Outcome.foldlM_keeps (P := fun plan : ReadPlan => ∀ c ∈ plan.columns, ∃ f ∈ s.fieldList, ∃ path,
    f.kind = .column path ∧ c.expr = .column path) (fun f hf plan _ hplan hstep => ?_) (List.forall_mem_nil _) hmiddle
  rcases addField_cases hstep with ⟨e, hcolumn, hisolated, hunmapped, rfl⟩ | ⟨_, rfl⟩ | ⟨_, _, _, _, rfl⟩
  · refine List.forall_mem_append.mpr ⟨hplan, List.forall_mem_singleton.mpr ⟨f, hmem f hf, ?_⟩⟩
    have hexpression := hfields f (hmem f hf)
    rw [SchemaField.isIsolated] at hisolated
    rw [SchemaField.isUnmapped] at hunmapped
    rw [SchemaField.isExpression] at hexpression
    cases hkind : f.kind with
    | column path => exact ⟨path, rfl, hcolumn path hkind⟩
    | expression e => simp [hkind] at hexpression
    | isolated how => simp [hkind] at hisolated
    | unmapped => simp [hkind] at hunmapped
  · exact hplan
  · exact hplan

end ReadPlan

namespace Application

/-- A fetch from a database that is there succeeds if its store can answer it. -/
theorem exists_runJob_fetch {name : String} {qs : Queryset} {columns : List SelectColumn}
    (hname : app.databaseOf ctx qs = .ok name) (hknown : name ∈ w.databases.map Prod.fst)
    (hfetch : ∃ records, (w.database name).store.fetch w.registry qs columns = .ok records) :
    ∃ records, (w.runJob (app.fetch ctx qs columns)).1 = .ok records := by
  by_cases hnone : qs.isNone
  · exact ⟨[], by rw [runJob_fetch_of_isNone hname hnone]⟩
  · obtain ⟨records, hrecords⟩ := hfetch
    exact ⟨records, runJob_fetch_of_store hname hknown hnone hrecords⟩

/-- Where no field is an expression, a read for keys prepares the rows it fetches. -/
theorem exists_prepare (hreg : app.registry = w.registry) (hs : s.Declared app.registry)
    (hself : ∀ st k, Store.pathValues app.registry st s.model k s.model.pkName = .ok [k])
    (hfields : ∀ f ∈ s.fieldList, f.isExpression = false) (hforced : ctx.forced = [])
    (hknown : ctx.database.getD app.connections.main ∈ w.databases.map Prod.fst)
    (hnames : app.connections.names = w.databases.map Prod.fst) (pks : List Value) :
    ∃ prepared, (w.runJob (app.prepare s (.keys pks) ctx)).1 = .ok prepared := by
  refine World.exists_runJob_bind ⟨_, rfl⟩ fun request hrequest => ?_
  cases request with
  | none => exact ⟨none, rfl⟩
  | some request =>
      obtain ⟨wanted, _, rfl⟩ := requestOfKeys_eq_some (Except.ok.inj hrequest)
      refine World.exists_runJob_bind ⟨w.clock, rfl⟩ fun now _ => ?_
      refine World.exists_runJob_bind (ReadPlan.exists_make app.registry s hforced now) fun plan hplan => ?_
      -- The clock that was read is all that has changed.
      have hdatabase : app.databaseOf ctx ((Queryset.all s.model).pkIn wanted) =
          .ok (ctx.database.getD app.connections.main) :=
        if_pos (List.contains_iff_mem.mpr (hnames ▸ hknown))
      have hfetch : ∃ records, (w.database (ctx.database.getD app.connections.main)).store.fetch w.registry
          ((Queryset.all s.model).pkIn wanted) plan.columns = .ok records := by
        rw [← hreg]
        refine Store.exists_fetch rfl (Store.select_keys (hself _) wanted) fun pk _ c hc => ?_
        obtain ⟨f, hf, path, hkind, hexpr⟩ := ReadPlan.column_of_mem hforced hfields hplan c hc
        obtain ⟨p, hp, hsingle, hconcrete, _⟩ := (hs.written hf).placed.of_kind hkind
        rw [hexpr]
        exact Store.exists_columnCells hp hsingle hconcrete pk
      refine World.exists_runJob_bind (exists_runJob_fetch hdatabase hknown hfetch) fun fetched _ => ?_
      dsimp only
      split <;> exact ⟨_, rfl⟩

end Application

namespace World

variable {decls : List ModelDecl} {cat : Catalog} {together : Bool} {g : Guard}

/-- Where no field is isolated or an expression, a read for keys succeeds. -/
theorem exists_readRows (hreg : Registry.build decls = .ok w.registry)
    (hdots : ∀ m ∈ w.registry.models, '.' ∉ m.pkName.toList) (hs : s.Declared w.registry)
    (hforced : ctx.forced = []) (hknown : ctx.database.getD w.main ∈ w.databases.map Prod.fst)
    (hfields : ∀ f ∈ s.fieldList, f.isIsolated = false ∧ f.isExpression = false) (pks : List Value) :
    ∃ rows, (w.readRows cat together s (.keys pks) ctx g).1.1 = .ok rows := by
  have hkeys := Registry.keysFound_of_build hreg hdots
  obtain ⟨key, hkey⟩ := hs.exists_keyField hkeys
  have hself := hkey.pathValues_pkName (hkeys s.model hs.mem_models).1 (hfields key hkey.mem).1
  obtain ⟨prepared, hprepared⟩ := @Application.exists_prepare (w.application cat) s ctx w rfl hs hself
    (fun f hf => (hfields f hf).2) hforced hknown rfl pks
  rw [outcome_readRows]
  obtain ⟨levels, hlevels⟩ : ∃ levels, w.levels cat ctx = levels + 1 := ⟨_, rfl⟩
  rw [hlevels, Journaling.rowsWithin, Journaling.exec_call, Journaling.exec_bind, Journaling.exec_ofJob]
  dsimp only
  rw [hprepared]
  rcases prepared with _ | ⟨plan, rows⟩
  · exact ⟨[], rfl⟩
  · have hplan := (Application.made_of_prepare hkey hprepared).1
    have hisolated : plan.isolated = [] := by
      refine List.eq_nil_iff_forall_not_mem.mpr fun f hf => ?_
      obtain ⟨hmem, hyes⟩ := hplan.isolated f hf
      rw [(hfields f hmem).1] at hyes
      cases hyes
    have hcollect : (w.application cat).collect together ctx plan (rows.map (·.getD s.pkName)) = pure [] := by
      rw [Application.collect, hisolated]
      split <;> rfl
    simp only [Journaling.exec_resolveRows, hcollect]
    exact ⟨_, rfl⟩

end World

end RecordMapper
