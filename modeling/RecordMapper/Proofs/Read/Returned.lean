import RecordMapper.Proofs.Read.Levels
import RecordMapper.Proofs.Read.Fetched

/-!
# Returned rows — what a read for keys comes back with

A read for plain keys prepares one row for every key that is stored, in
the order of the keys, whatever the fetch multiplies; if the key of the
schema leads to other rows, it prepares none. From there on every row
keeps its key, and each isolated field the shape it starts with: a list,
or null until one row of its nested schema is found. Finishing keeps the
fields that were asked for and the forced expressions alone.
-/

namespace RecordMapper

variable {app : Application} {s : Schema} {key f : SchemaField} {ctx : Context} {plan : ReadPlan}
  {rows : List Record} {w : World}

/-! ## Shapes -/

/-- Whether a value can stand for a field: a list for an isolated field of many values, and nothing or one
row for a single one with a nested schema. -/
structure SchemaField.Shaped (f : SchemaField) (v : Value) : Prop where
  many : f.isIsolated → f.relatedSingle = false → ∃ vs, v = .list vs
  row : f.nested.isSome → f.relatedSingle → v = .null ∨ ∃ row, v = .map row

namespace SchemaField

theorem shaped_placeholder (f : SchemaField) : f.Shaped f.placeholder := by
  rw [placeholder]
  cases hsingle : f.relatedSingle with
  | true => exact ⟨by simp [hsingle], fun _ _ => .inl rfl⟩
  | false => exact ⟨fun _ _ => ⟨[], rfl⟩, by simp [hsingle]⟩

theorem shaped_of_mem_shape {links : Links} {look : Value → Option Value} (hlook : f.LooksUp look)
    {e : Value × Value} (he : e ∈ f.shape links look) : f.Shaped e.2 := by
  obtain ⟨⟨owner, values⟩, _, rfl⟩ := List.mem_map.mp he
  dsimp only
  cases hsingle : f.relatedSingle with
  | false => exact ⟨fun _ _ => ⟨_, rfl⟩, by simp [hsingle]⟩
  | true =>
      refine ⟨by simp [hsingle], fun hnested _ => ?_⟩
      rw [if_pos rfl]
      cases hfound : values.filterMap look with
      | nil => exact .inl rfl
      | cons v rest =>
          have hmem : v ∈ values.filterMap look := hfound ▸ List.mem_cons_self
          obtain ⟨pk, _, hv⟩ := List.mem_filterMap.mp hmem
          exact .inr (hlook hnested pk v hv)

end SchemaField

/-- The rows have for each of some fields a value that can stand for it. -/
def RowsShaped (fields : List SchemaField) (rows : List Record) : Prop :=
  ∀ row ∈ rows, ∀ f ∈ fields, f.Shaped (row.getD f.name)

/-- Putting in what one field looks up leaves all fields in shape. -/
theorem RowsShaped.assignField {fields : List SchemaField} (hnames : (s.fieldList.map (·.name)).Nodup)
    (hfields : ∀ f ∈ fields, f ∈ s.fieldList) (hrows : RowsShaped fields rows) {put : SchemaField}
    (hput : put ∈ s.fieldList) {links : Links} {look : Value → Option Value} (hlook : put.LooksUp look) :
    RowsShaped fields (RecordMapper.assignField s.pkName put.name (put.shape links look) rows) := by
  intro row' hrow' f hf
  obtain ⟨row, hrow, rfl | ⟨e, he, rfl⟩⟩ := mem_assignField hrow'
  · exact hrows _ hrow f hf
  · by_cases hname : f.name = put.name
    · obtain rfl := List.inj_on_of_nodup_map hnames (hfields f hf) hput hname
      rw [Record.getD_eq, Record.lookup_insert_self, Option.getD_some]
      exact SchemaField.shaped_of_mem_shape hlook he
    · rw [Record.getD_eq, Record.lookup_insert_ne row hname, ← Record.getD_eq]
      exact hrows row hrow f hf

/-! ## The keys of prepared rows -/

/-- Those of some keys that a model has rows of, each once, at its first place. -/
def Store.storedAmong (st : Store) (m : Model) (pks : List Value) : List Value :=
  (distinctOf (given pks)).filter (· ∈ st.keys m)

/-- Where the field for the primary key is a column, the name of the key leads from each row to its key. -/
theorem Schema.KeyField.pathValues_pkName {reg : Registry} (hkey : s.KeyField reg key)
    (hdot : dottedNames s.model.pkName = [s.model.pkName]) (hdirect : key.isIsolated = false) (st : Store) (pk : Value) :
    Store.pathValues reg st s.model pk s.model.pkName = .ok [pk] := by
  rcases hkey.kind_cases with ⟨path, p, _, hp, hsteps, hname, hconcrete⟩ | ⟨target, link, value, hkind⟩
  · exact Store.pathValues_keyName hdot hp hsteps hname hconcrete
  · rw [SchemaField.isIsolated, hkind] at hdirect
    cases hdirect

namespace Application

/-- The database that a context means if it does not say which. -/
theorem databaseOf_all {m : Model} {wanted : List Value} {name : String}
    (h : app.databaseOf ctx ((Queryset.all m).pkIn wanted) = .ok name) :
    name = ctx.database.getD app.connections.main := by
  have hresolve : app.connections.resolve ctx.database = .ok name := h
  rw [Connections.resolve] at hresolve
  split at hresolve
  · exact (Except.ok.inj hresolve).symm
  · cases hresolve

section Keys

variable (hkey : s.KeyField app.registry key) (hdot : dottedNames s.model.pkName = [s.model.pkName])
  (hforced : s.pkName ∉ ctx.forced.map Prod.fst)
include hkey hdot hforced

/-- Of plain keys that are asked for those are fetched that are stored, and none if the key leads to other
rows. -/
theorem mem_fetched_keys (hmade : plan.Made s key ctx) {st : Store} {wanted : List Value}
    (hplain : ∀ k ∈ wanted, k.isPlain) {fetched : List Record}
    (hfetch : st.fetch app.registry ((Queryset.all s.model).pkIn wanted) plan.columns = .ok fetched) {k : Value}
    (hk : k ∈ wanted) :
    k ∈ fetched.map (·.getD s.pkName) ↔ key.isIsolated = false ∧ k ∈ st.keys s.model := by
  constructor
  · intro hmem
    obtain ⟨row, hrow, rfl⟩ := List.mem_map.mp hmem
    rcases getD_of_mem_fetch hkey hmade hforced rfl (fun _ => rfl) hfetch hrow with hstored | hnull
    · exact hstored
    · exact absurd hnull (Value.ne_null_of_isPlain (hplain _ hk))
  · rintro ⟨hdirect, hstored⟩
    have hself := hkey.pathValues_pkName hdot hdirect st
    have hselected : k ∈ (st.keys s.model).filter (Lookup.oneOf wanted).holds :=
      List.mem_filter.mpr ⟨hstored, Store.holds_oneOf_of_isPlain hk (hplain k hk)⟩
    obtain ⟨own, hown, row, hrow, hmem⟩ :=
      Store.exists_mem_fetch hfetch (Store.select_keys hself wanted) hselected
    have hrowKey := getD_of_mem_rowRecords hkey hmade hforced (fun _ => rfl) hdirect hown hrow
    exact List.mem_map.mpr ⟨row, hmem, hrowKey⟩

/-- The distinct rows that are fetched for plain keys are those of the keys that are stored, in the order of the
keys; if the key leads to other rows, there are none. -/
theorem distinct_fetched_keys (hmade : plan.Made s key ctx) {st : Store} {wanted : List Value} (hnd : wanted.Nodup)
    (hplain : ∀ k ∈ wanted, k.isPlain) {fetched : List Record}
    (hfetch : st.fetch app.registry ((Queryset.all s.model).pkIn wanted) plan.columns = .ok fetched) :
    (distinctRows (some wanted) s.pkName fetched).map (·.getD s.pkName) =
      if key.isIsolated then [] else wanted.filter (· ∈ st.keys s.model) := by
  have hmem : ∀ k ∈ wanted, (k ∈ fetched.map (·.getD s.pkName) ↔ key.isIsolated = false ∧ k ∈ st.keys s.model) :=
    fun k hk => mem_fetched_keys hkey hdot hforced hmade hplain hfetch hk
  rw [keys_distinctRows hnd hplain]
  cases hisolated : key.isIsolated with
  | true =>
      rw [if_pos rfl, List.filter_eq_nil_iff]
      intro k hk
      simp [hmem k hk, hisolated]
  | false =>
      rw [if_neg Bool.false_ne_true]
      exact List.filter_congr fun k hk => by simp [hmem k hk, hisolated]

omit hdot hforced in
/-- A read for keys goes on with nothing if there is none to ask for, and otherwise with the distinct rows that
are fetched for them. -/
theorem prepare_keys_eq_ok {pks : List Value} (hsingle : ctx.single = false) (hreg : app.registry = w.registry)
    {prepared : Option (ReadPlan × List Record)} (h : (w.runJob (app.prepare s (.keys pks) ctx)).1 = .ok prepared) :
    distinctOf (given pks) = [] ∧ prepared = none ∨ ∃ plan fetched, plan.Made s key ctx ∧
      (w.database (ctx.database.getD app.connections.main)).store.fetch app.registry
        ((Queryset.all s.model).pkIn (distinctOf (given pks))) plan.columns = .ok fetched ∧
      prepared = if (distinctRows (some (distinctOf (given pks))) s.pkName fetched).isEmpty then none
        else some (plan, (distinctRows (some (distinctOf (given pks))) s.pkName fetched).map plan.prefill) := by
  have hasked : ∀ request, s.request? app.registry (.keys pks) ctx.single = .ok request →
      request = if (distinctOf (given pks)).isEmpty then none
        else some ⟨(Queryset.all s.model).pkIn (distinctOf (given pks)), some (distinctOf (given pks))⟩ := by
    intro request hrequest
    rw [hsingle] at hrequest
    exact (Except.ok.inj hrequest).symm
  generalize distinctOf (given pks) = wanted at hasked ⊢
  rcases prepare_eq_ok h with ⟨hrequest, rfl⟩ | ⟨request, now, plan, fetched, hrequest, -, hplan, hfetched, rfl⟩
  · have hnone := hasked _ hrequest
    split at hnone
    · rename_i hempty
      exact .inl ⟨List.isEmpty_iff.mp hempty, rfl⟩
    · cases hnone
  · have hsome := hasked _ hrequest
    split at hsome
    · cases hsome
    · cases hsome
      rcases hfetched with ⟨hnone, _⟩ | ⟨name, hdatabase, _, hfetch⟩
      · cases hnone
      · rw [← hreg, databaseOf_all hdatabase] at hfetch
        exact .inr ⟨plan, fetched, ReadPlan.made_of_make hkey hplan, hfetch, rfl⟩

/-- A read for plain keys goes on with a row for every key that is stored, in the order of the keys, and with
nothing if the key leads to other rows. -/
theorem prepare_keys {pks : List Value} (hplain : ∀ pk ∈ pks, pk = .null ∨ pk.isPlain)
    (hsingle : ctx.single = false) (hreg : app.registry = w.registry) {prepared : Option (ReadPlan × List Record)}
    (h : (w.runJob (app.prepare s (.keys pks) ctx)).1 = .ok prepared) :
    (key.isIsolated → prepared = none) ∧ (key.isIsolated = false →
      (prepared.elim [] fun p => p.2.map (·.getD s.pkName)) =
        (w.database (ctx.database.getD app.connections.main)).store.storedAmong s.model pks) := by
  have hgiven : ∀ k ∈ distinctOf (given pks), k.isPlain := by
    intro k hk
    obtain ⟨hmem, hnull⟩ := mem_given.mp (mem_distinctOf.mp hk)
    exact (hplain k hmem).resolve_left hnull
  rw [Store.storedAmong]
  rcases prepare_keys_eq_ok hkey hsingle hreg h with ⟨hnone, rfl⟩ | ⟨plan, fetched, hmade, hfetch, rfl⟩
  · rw [hnone]
    exact ⟨fun _ => rfl, fun _ => rfl⟩
  · have hrows := distinct_fetched_keys hkey hdot hforced hmade (nodup_distinctOf _) hgiven hfetch
    generalize distinctRows (some (distinctOf (given pks))) s.pkName fetched = distinct at hrows
    constructor
    · intro hisolated
      rw [if_pos hisolated, List.map_eq_nil_iff] at hrows
      rw [hrows]
      rfl
    · intro hdirect
      rw [hdirect, if_neg Bool.false_ne_true] at hrows
      rw [← hrows]
      split
      · rename_i hempty
        rw [List.isEmpty_iff.mp hempty]
        rfl
      · exact ReadPlan.keys_prefill hkey hmade hdirect distinct

end Keys

end Application

/-! ## From prepared to finished rows -/

/-- Prefilled rows have every isolated field that is asked for in shape. -/
theorem rowsShaped_prefill (hnames : (s.fieldList.map (·.name)).Nodup) (hplan : plan.Made s key ctx)
    (rows : List Record) :
    RowsShaped ((ReadPlan.requested s ctx).filter (·.isIsolated)) (rows.map plan.prefill) := by
  intro row' hrow' f hf
  obtain ⟨row, _, rfl⟩ := List.mem_map.mp hrow'
  obtain ⟨hasked, hisolated⟩ := List.mem_filter.mp hf
  have hmem : f ∈ s.fieldList := (List.mem_filter.mp hasked).1
  rw [ReadPlan.getD_prefill_of_mem (hplan.eq_placeholder hnames hmem hisolated)
    (hplan.kept f hasked hisolated) row]
  exact f.shaped_placeholder

/-- Resolving rows keeps what putting in the values of isolated fields keeps, and finishes the rows. -/
theorem Journaling.resolveRows_keeps (hkey : s.KeyField app.registry key) (hplan : plan.Made s key ctx)
    (hprepared : PreparedKeys s key rows) {P : List Record → Prop}
    (hput : ∀ c, Collectible s key c → ∀ rows look, c.field.LooksUp look → P rows →
      P (assignField s.pkName c.field.name (c.field.shape c.links look) rows)) (hrows : P rows) {together : Bool}
    {read : Schema → Source → Context → Journaling (List Record)} {m : Moment} {finished : List Record}
    (h : ((resolveRows app together read s ctx plan rows).exec m).1 = .ok finished) :
    ∃ rows', finished = rows'.map plan.finish ∧ P rows' := by
  -- Whatever nested reads do, they do not touch the rows.
  have hread : ∀ m' : Moment, True → ∀ f nested, app.nested? s f = .ok (some nested) → ∀ missing,
      (∀ pk ∈ missing, m'.journal.guard.contains ((ctx.derive f.name).guardKey nested.id) pk = false) →
        LeadsTo (fun _ _ => True) (fun _ => True) m' (read nested (.keys missing) (ctx.derive f.name))
          (read nested (.keys missing) (ctx.derive f.name)) :=
    fun _ _ _ _ _ _ _ => ⟨rfl, trivial, fun _ _ => trivial⟩
  have hleads := leads_resolveFields (R := fun _ _ => True) ⟨fun _ => trivial, fun _ _ => trivial⟩
    (m := ⟨m.journal.note (ctx.guardKey s.id) (keyedBy s.pkName rows plan.finish), m.world⟩)
    (fun _ _ _ _ => trivial) (fun _ _ _ _ => trivial) hread hput hkey hplan together hprepared.eq_null hrows
  have hyields := hleads.yields
  rw [exec_resolveRows] at h
  generalize (ofJob (app.collect together ctx plan (rows.map (·.getD s.pkName))) >>= fun collected =>
    collected.foldlM (resolveField app read s ctx) rows).exec _ = result at h hyields
  obtain ⟨outcome, m'⟩ := result
  cases outcome with
  | error e => cases h
  | ok rows' =>
      cases h
      exact ⟨rows', rfl, hyields rows' rfl⟩

/-- Resolving rows keeps their keys and their shapes, and finishes them. -/
theorem Journaling.exists_of_resolveRows (hkey : s.KeyField app.registry key)
    (hnames : (s.fieldList.map (·.name)).Nodup) (hplan : plan.Made s key ctx) (hprepared : PreparedKeys s key rows)
    {fields : List SchemaField} (hfields : ∀ f ∈ fields, f ∈ s.fieldList) (hshaped : RowsShaped fields rows)
    {together : Bool} {read : Schema → Source → Context → Journaling (List Record)} {m : Moment}
    {finished : List Record}
    (h : ((resolveRows app together read s ctx plan rows).exec m).1 = .ok finished) :
    ∃ rows', finished = rows'.map plan.finish ∧ KeysStay s key (rows.map (·.getD s.pkName)) rows' ∧
      RowsShaped fields rows' := by
  have hput : ∀ c, Collectible s key c → ∀ rows' look, c.field.LooksUp look →
      KeysStay s key (rows.map (·.getD s.pkName)) rows' ∧ RowsShaped fields rows' →
        KeysStay s key (rows.map (·.getD s.pkName))
            (assignField s.pkName c.field.name (c.field.shape c.links look) rows') ∧
          RowsShaped fields (assignField s.pkName c.field.name (c.field.shape c.links look) rows') :=
    fun c hc rows' look hlook ⟨hstay, hrows'⟩ =>
      ⟨keysStay_assignField hkey hc look hstay, hrows'.assignField hnames hfields hc.mem hlook⟩
  exact resolveRows_keeps hkey hplan hprepared hput ⟨hprepared.keysStay, hshaped⟩ h

/-- A finished row has the fields that were asked for and the forced expressions, in order, and its fields
are in shape. -/
theorem finished_row {reg : Registry} (hkeys : reg.KeysFound) (hs : s.Declared reg) (hplan : plan.Made s key ctx)
    (hnodup : (ctx.forced.map Prod.fst).Nodup) (hforced : ∀ f ∈ s.fieldList, f.name ∉ ctx.forced.map Prod.fst)
    (hshaped : RowsShaped ((ReadPlan.requested s ctx).filter (·.isIsolated)) rows) {row : Record}
    (hrow : row ∈ rows) :
    (plan.finish row).map Prod.fst = (ReadPlan.requested s ctx).map (·.name) ++ ctx.forced.map Prod.fst ∧
      ∀ f ∈ ReadPlan.requested s ctx, f.Shaped ((plan.finish row).getD f.name) := by
  have hnames := hs.nodup_names
  have hasked : ∀ f ∈ ReadPlan.requested s ctx, f ∈ s.fieldList := fun f hf => (List.mem_filter.mp hf).1
  refine ⟨ReadPlan.names_finish hplan (List.Nodup.append ?_ hnodup ?_) row, fun f hf => ?_⟩
  · exact hnames.sublist (List.filter_sublist.map _)
  · intro name hname hmem
    obtain ⟨f, hf, rfl⟩ := List.mem_map.mp hname
    exact hforced f (hasked f hf) hmem
  · have hmem := hasked f hf
    cases hisolated : f.isIsolated with
    | false =>
        -- A field that is not isolated has no nested schema.
        have hno : ¬f.isIsolated = true := by simp [hisolated]
        exact ⟨fun h => absurd h hno, fun h _ => absurd (hs.isIsolated_of_nested hkeys hmem h) hno⟩
    | true =>
        rw [ReadPlan.getD_finish_of_mem hnames hplan hf (hplan.name_ne_of_isolated hnames hmem hisolated) row,
          if_neg (hforced f hmem)]
        exact hshaped row hrow f (List.mem_filter.mpr ⟨hf, hisolated⟩)

/-! ## Whole reads -/

namespace World

variable {decls : List ModelDecl} {cat : Catalog} {together : Bool} {pks : List Value} {g : Guard}

/-- A read has the outcome of the read that keeps a journal, whatever the guard knows before. -/
theorem outcome_readRows (w : World) (cat : Catalog) (together : Bool) (s : Schema) (src : Source)
    (ctx : Context) (g : Guard) : (w.readRows cat together s src ctx g).1.1 =
      ((Journaling.rowsWithin (w.application cat) together (w.levels cat ctx) s src ctx).exec
        ⟨⟨g, [], 0, []⟩, w⟩).1 := by
  have hmirror := Journaling.mirrors_rowsWithin (w.application cat) together (w.levels cat ctx) s src ctx
    ⟨g, [], 0, []⟩
  rw [readRows, ← hmirror, run_bind]
  rfl

/-- A read that succeeds returns nothing if nothing was prepared, and otherwise the prepared rows resolved, in the
world that is left by preparing them. -/
theorem readRows_resolved {src : Source} (h : (w.readRows cat together s src ctx g).1.1 = .ok rows) :
    ∃ prepared, (w.runJob ((w.application cat).prepare s src ctx)).1 = .ok prepared ∧
      (prepared = none ∧ rows = [] ∨ ∃ plan before read m, prepared = some (plan, before) ∧
        m.world = (w.runJob ((w.application cat).prepare s src ctx)).2 ∧
        ((Journaling.resolveRows (w.application cat) together read s ctx plan before).exec m).1 = .ok rows) := by
  rw [outcome_readRows] at h
  obtain ⟨levels, hlevels⟩ : ∃ levels, w.levels cat ctx = levels + 1 := ⟨_, rfl⟩
  rw [hlevels, Journaling.rowsWithin, Journaling.exec_call, Journaling.exec_bind, Journaling.exec_ofJob] at h
  dsimp only at h
  generalize hprepared : (w.runJob ((w.application cat).prepare s src ctx)).1 = prepared at h
  rcases prepared with e | none | ⟨plan, before⟩
  · cases h
  · cases h
    exact ⟨none, rfl, .inl ⟨rfl, rfl⟩⟩
  · exact ⟨_, rfl, .inr ⟨plan, before, _, _, rfl, rfl, h⟩⟩

/-- A read that succeeds returns nothing if nothing was prepared, and otherwise the prepared rows resolved. -/
theorem readRows_eq_ok {src : Source} (h : (w.readRows cat together s src ctx g).1.1 = .ok rows) :
    ∃ prepared, (w.runJob ((w.application cat).prepare s src ctx)).1 = .ok prepared ∧
      (prepared = none ∧ rows = [] ∨ ∃ plan before read m, prepared = some (plan, before) ∧
        ((Journaling.resolveRows (w.application cat) together read s ctx plan before).exec m).1 = .ok rows) := by
  obtain ⟨prepared, hprepared, hnothing | ⟨plan, before, read, m, hsome, -, hresolved⟩⟩ := readRows_resolved h
  · exact ⟨prepared, hprepared, .inl hnothing⟩
  · exact ⟨prepared, hprepared, .inr ⟨plan, before, read, m, hsome, hresolved⟩⟩

/-- A read that succeeds returns nothing if nothing was prepared, and otherwise finished rows: those that were prepared
keep their keys, and their isolated fields are in shape. -/
theorem finished_of_readRows {src : Source} {key : SchemaField} (hkey : s.KeyField w.registry key)
    (hnames : (s.fieldList.map (·.name)).Nodup) (h : (w.readRows cat together s src ctx g).1.1 = .ok rows) :
    ∃ prepared, (w.runJob ((w.application cat).prepare s src ctx)).1 = .ok prepared ∧
      (prepared = none ∧ rows = [] ∨ ∃ plan before rows', prepared = some (plan, before) ∧ plan.Made s key ctx ∧
        rows = rows'.map plan.finish ∧ KeysStay s key (before.map (·.getD s.pkName)) rows' ∧
        RowsShaped ((ReadPlan.requested s ctx).filter (·.isIsolated)) rows') := by
  obtain ⟨prepared, hprepared, hrows⟩ := readRows_eq_ok h
  refine ⟨prepared, hprepared, ?_⟩
  rcases hrows with hnothing | ⟨plan, before, read, m, rfl, hresolved⟩
  · exact .inl hnothing
  · have hplan := (Application.made_of_prepare hkey hprepared).1
    have hbefore := Application.keys_of_prepare hkey hprepared
    have hshaped : RowsShaped ((ReadPlan.requested s ctx).filter (·.isIsolated)) before := by
      obtain ⟨_, _, _, _, _, rfl, _⟩ := Application.exists_of_prepare hprepared
      exact rowsShaped_prefill hnames hplan _
    obtain ⟨rows', hfinished, hstay, hshaped'⟩ := Journaling.exists_of_resolveRows hkey hnames hplan hbefore
      (fun f hf => (List.mem_filter.mp (List.mem_filter.mp hf).1).1) hshaped hresolved
    exact .inr ⟨plan, before, rows', rfl, hplan, hfinished, hstay, hshaped'⟩

/-- The rows that a read for keys returns have the keys that are stored, unless the key leads to other rows. -/
theorem keys_of_readRows {key : SchemaField} (hkeys : w.registry.KeysFound) (hs : s.Declared w.registry)
    (hkey : s.KeyField w.registry key) (hplain : ∀ pk ∈ pks, pk = .null ∨ pk.isPlain) (hsingle : ctx.single = false)
    (hpk : s.pkName ∉ ctx.forced.map Prod.fst) (h : (w.readRows cat together s (.keys pks) ctx g).1.1 = .ok rows) :
    (key.isIsolated → rows = []) ∧ (key.isIsolated = false → rows.map (·.getD s.pkName) =
      (w.database (ctx.database.getD w.main)).store.storedAmong s.model pks) := by
  have hnames := hs.nodup_names
  obtain ⟨prepared, hprepared, hrows⟩ := finished_of_readRows hkey hnames h
  obtain ⟨hisolated, hdirect⟩ :=
    Application.prepare_keys hkey (hkeys s.model hs.mem_models).1 hpk hplain hsingle rfl hprepared
  rcases hrows with ⟨rfl, rfl⟩ | ⟨plan, before, rows', rfl, hplan, rfl, hstay, _⟩
  · exact ⟨fun _ => rfl, hdirect⟩
  · refine ⟨fun h => ?_, fun h => ?_⟩
    · cases hisolated h
    · rw [KeysStay, h, if_neg Bool.false_ne_true] at hstay
      rw [List.map_map]
      refine Eq.trans (List.map_congr_left fun row _ => ?_) (hstay.trans (hdirect h))
      rw [Function.comp_apply, ReadPlan.getD_finish hkey hnames hplan, if_neg hpk]

/-- The rows that a read returns have the fields that were asked for and the forced expressions, all in shape. -/
theorem fields_of_readRows {src : Source} (hkeys : w.registry.KeysFound) (hs : s.Declared w.registry)
    (hnodup : (ctx.forced.map Prod.fst).Nodup) (hforced : ∀ f ∈ s.fieldList, f.name ∉ ctx.forced.map Prod.fst)
    (h : (w.readRows cat together s src ctx g).1.1 = .ok rows) : ∀ row ∈ rows,
      row.map Prod.fst = (ReadPlan.requested s ctx).map (·.name) ++ ctx.forced.map Prod.fst ∧
      ∀ f ∈ ReadPlan.requested s ctx, f.Shaped (row.getD f.name) := by
  obtain ⟨key, hkey⟩ := hs.exists_keyField hkeys
  obtain ⟨_, _, ⟨_, rfl⟩ | ⟨plan, _, rows', _, hplan, rfl, _, hshaped⟩⟩ := finished_of_readRows hkey hs.nodup_names h
  · exact List.forall_mem_nil _
  · intro _ hfinished
    obtain ⟨row, hrow, rfl⟩ := List.mem_map.mp hfinished
    exact finished_row hkeys hs hplan hnodup hforced hshaped hrow

/-- A read for keys returns a row for every key that is stored, each once, in the order of the keys; only if
the primary key is a field that leads to other rows it returns none. Every row has the readable fields in
scope in the order of the schema, and then the forced expressions; its isolated lists are lists, and its
single fields with a nested schema are null or a row. -/
theorem readRows_keys (hreg : Registry.build decls = .ok w.registry)
    (hdots : ∀ m ∈ w.registry.models, '.' ∉ m.pkName.toList) (hs : s.Declared w.registry)
    (hplain : ∀ pk ∈ pks, pk = .null ∨ pk.isPlain) (hsingle : ctx.single = false)
    (hnodup : (ctx.forced.map Prod.fst).Nodup) (hforced : ∀ f ∈ s.fieldList, f.name ∉ ctx.forced.map Prod.fst)
    (h : (w.readRows cat together s (.keys pks) ctx g).1.1 = .ok rows) :
    (∃ key ∈ s.fieldList, key.name = s.pkName ∧ (key.isIsolated → rows = []) ∧
      (key.isIsolated = false → rows.map (·.getD s.pkName) =
        (w.database (ctx.database.getD w.main)).store.storedAmong s.model pks)) ∧
    ∀ row ∈ rows,
      row.map Prod.fst = (ReadPlan.requested s ctx).map (·.name) ++ ctx.forced.map Prod.fst ∧
      ∀ f ∈ ReadPlan.requested s ctx, f.Shaped (row.getD f.name) := by
  have hkeys := Registry.keysFound_of_build hreg hdots
  obtain ⟨key, hkey⟩ := hs.exists_keyField hkeys
  have hpk : s.pkName ∉ ctx.forced.map Prod.fst := hkey.name ▸ hforced key hkey.mem
  obtain ⟨hisolated, hdirect⟩ := keys_of_readRows hkeys hs hkey hplain hsingle hpk h
  exact ⟨⟨key, hkey.mem, hkey.name, hisolated, hdirect⟩, fields_of_readRows hkeys hs hnodup hforced h⟩

/-! ## Friends and fans -/

open Registry (built modelOf tableOf)

def fanFields : List FieldDecl :=
  [{ name := "id" }, { name := "friend", nested := some .self }, { name := "fans" }]

/-- The schema of a person with a friend, who is read with the same schema, and the keys of the fans. -/
def fanSchema : Schema :=
  match Schema.build (built people) {} "Fan" (modelOf (built people) "person") fanFields with
  | .ok s => s
  | .error _ => default

/-- A context that asks for the key once more. -/
def withNumber : Context := { forced := [("number", .column "id")] }

/-- Keys that are asked for, with one twice, null, and one of nobody. -/
def askedKeys : List Value := [.int 2, .null, .int 1, .int 2, .int 7]

/-- The two friends as they are read for these keys. -/
def friendsRead : List Record :=
  match (twoFriends.readRows {} false fanSchema (.keys askedKeys) withNumber .empty).1.1 with
  | .ok rows => rows
  | .error _ => []

/-- Two friends are read once each, in the order of the keys; null and the key of nobody are passed over. -/
theorem readRows_keys_friends :
    (Registry.build people = .ok twoFriends.registry ∧
      (∀ m ∈ twoFriends.registry.models, '.' ∉ m.pkName.toList) ∧ fanSchema.Declared twoFriends.registry ∧
      (∀ pk ∈ askedKeys, pk = .null ∨ pk.isPlain) ∧ withNumber.single = false ∧
      (withNumber.forced.map Prod.fst).Nodup ∧
      (∀ f ∈ fanSchema.fieldList, f.name ∉ withNumber.forced.map Prod.fst) ∧
      (twoFriends.readRows {} false fanSchema (.keys askedKeys) withNumber .empty).1.1 =
        .ok friendsRead) ∧
    ((∃ key ∈ fanSchema.fieldList, key.name = fanSchema.pkName ∧ (key.isIsolated → friendsRead = []) ∧
        (key.isIsolated = false → friendsRead.map (·.getD fanSchema.pkName) =
          (twoFriends.database (withNumber.database.getD twoFriends.main)).store.storedAmong fanSchema.model
            askedKeys)) ∧
      ∀ row ∈ friendsRead,
        row.map Prod.fst =
          (ReadPlan.requested fanSchema withNumber).map (·.name) ++ withNumber.forced.map Prod.fst ∧
        ∀ f ∈ ReadPlan.requested fanSchema withNumber, f.Shaped (row.getD f.name)) ∧
    friendsRead.map (·.getD "id") = [.int 2, .int 1] := by
  have hbuild : Schema.build (built people) {} "Fan" (modelOf (built people) "person") fanFields =
      .ok fanSchema := rfl
  have hreg : Registry.build people = .ok twoFriends.registry := rfl
  have hdots : ∀ m ∈ twoFriends.registry.models, '.' ∉ m.pkName.toList := by decide
  have hs : fanSchema.Declared twoFriends.registry := .built (by decide) hbuild
  have hplain : ∀ pk ∈ askedKeys, pk = .null ∨ pk.isPlain := by decide
  have hnodup : (withNumber.forced.map Prod.fst).Nodup := by decide
  have hforced : ∀ f ∈ fanSchema.fieldList, f.name ∉ withNumber.forced.map Prod.fst := by decide
  have hread : (twoFriends.readRows {} false fanSchema (.keys askedKeys) withNumber .empty).1.1 =
      .ok friendsRead := Outcome.toOption_eq_some.mp (by decide +kernel)
  exact ⟨⟨hreg, hdots, hs, hplain, rfl, hnodup, hforced, hread⟩,
    readRows_keys hreg hdots hs hplain rfl hnodup hforced hread, by decide +kernel⟩

/-! ## A profile that is known by its user -/

/-- Users, and profiles whose primary key is the user they belong to. -/
def accounts : List ModelDecl :=
  [{ name := "user", fields := [.autoKey "id", .of "name" .char] },
    { name := "profile"
      fields := [(Field.of "user" (.oneToOne "user" (some "profile"))).asPrimaryKey, .of "bio" .char] }]

/-- A user with a profile. -/
def oneAccount : World where
  registry := built accounts
  databases := [("default",
    ⟨⟨[("user", tableOf [(1, [("name", .text "Ann")])]),
      ("profile", tableOf [(1, [("bio", .text "b")])])]⟩, [], []⟩)]
  main := "default"
  clock := default
  tick := 0

def userFields : List FieldDecl := [{ name := "id" }, { name := "name" }]

/-- The schema of a user. -/
def userSchema : Schema :=
  match Schema.build (built accounts) {} "User" (modelOf (built accounts) "user") userFields with
  | .ok s => s
  | .error _ => default

def userCatalog : Catalog := { schemas := [(1, userSchema)], next := 2 }

def profileFields : List FieldDecl := [{ name := "user", nested := some (.schema 1) }, { name := "bio" }]

/-- The schema of a profile whose key is shown as the user. -/
def profileSchema : Schema :=
  match Schema.build (built accounts) userCatalog "Profile" (modelOf (built accounts) "profile") profileFields with
  | .ok s => s
  | .error _ => default

/-- The profile of user 1 is stored, and a read for its key succeeds without returning it: its key field
leads to the user, so no row that is fetched has a key yet. -/
theorem stored_profile_not_returned :
    Registry.build accounts = .ok oneAccount.registry ∧ profileSchema.Declared oneAccount.registry ∧
    userCatalog.Declared oneAccount.registry ∧
    (oneAccount.readRows userCatalog false profileSchema (.keys [.int 1]) {} .empty).1.1 = .ok [] ∧
    (oneAccount.database "default").store.storedAmong profileSchema.model [.int 1] = [.int 1] := by
  have huser : Schema.build (built accounts) {} "User" (modelOf (built accounts) "user") userFields =
      .ok userSchema := rfl
  have hprofile : Schema.build (built accounts) userCatalog "Profile" (modelOf (built accounts) "profile")
      profileFields = .ok profileSchema := rfl
  refine ⟨rfl, .built (by decide) hprofile, ?_, Outcome.toOption_eq_some.mp (by decide +kernel), by decide +kernel⟩
  intro e he
  obtain rfl := List.mem_singleton.mp he
  exact .built (by decide) huser

end World

end RecordMapper
