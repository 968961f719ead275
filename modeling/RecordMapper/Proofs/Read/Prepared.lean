import RecordMapper.Proofs.Read.Collected
import RecordMapper.Proofs.Read.Journal
import RecordMapper.Proofs.Store.Aggregates

/-!
# Prepared rows — which rows a read goes on with

The rows of a read have distinct keys if the key is a column. A nested
read goes on with stored rows of the keys it was asked for, and with
none if its key leads to other rows.
-/

namespace RecordMapper

/-! ## Stored keys -/

namespace World

variable {w w' : World} {name : String} {m : Model} {pk : Value}

/-- The primary keys of all rows in all databases. -/
def storedKeys (w : World) : List Value :=
  w.databases.flatMap fun e => e.2.store.tables.flatMap fun t => t.2.rows.map Prod.fst

/-- Every stored primary key is plain. -/
def PlainKeys (w : World) : Prop := ∀ pk ∈ w.storedKeys, pk.isPlain

theorem length_storedKeys (w : World) : w.storedKeys.length = w.rowCount := by
  rw [storedKeys, rowCount, List.length_flatMap, List.sum]
  refine congrArg (List.foldr (· + ·) 0) (List.map_congr_left fun e _ => ?_)
  rw [Store.size, List.length_flatMap, List.sum]
  exact congrArg (List.foldr (· + ·) 0) (List.map_congr_left fun t _ => List.length_map _)

theorem mem_storedKeys (hname : name ∈ w.databases.map Prod.fst)
    (hpk : pk ∈ (w.database name).store.keys m) : pk ∈ w.storedKeys := by
  obtain ⟨db, hdb⟩ := Option.isSome_iff_exists.mp (lookup_isSome_iff_mem_keys.mpr hname)
  rw [database, hdb, Option.getD_some, Store.keys, Store.table] at hpk
  cases ht : db.store.tables.lookup m.name with
  | none =>
      rw [ht] at hpk
      cases hpk
  | some t =>
      rw [ht, Option.getD_some] at hpk
      exact List.mem_flatMap.mpr ⟨_, mem_of_lookup hdb, List.mem_flatMap.mpr ⟨_, mem_of_lookup ht, hpk⟩⟩

theorem Unchanged.mem_storedKeys (h : w.Unchanged w') (hname : name ∈ w'.databases.map Prod.fst)
    (hpk : pk ∈ (w'.database name).store.keys m) : pk ∈ w.storedKeys := by
  rw [h.store] at hpk
  exact World.mem_storedKeys (h.names ▸ hname) hpk

end World

/-! ## Preparing -/

/-- The keys of rows that a read goes on with: distinct if the key is a column, and still at their
placeholder if it leads to other rows. -/
def PreparedKeys (s : Schema) (key : SchemaField) (rows : List Record) : Prop :=
  if key.isIsolated then ∀ row ∈ rows, row.getD s.pkName = key.placeholder
  else (rows.map (·.getD s.pkName)).Nodup

namespace Application

variable {app : Application} {s : Schema} {key : SchemaField} {src : Source} {ctx : Context}
  {plan : ReadPlan} {rows : List Record} {w : World}

theorem yields_clock : Job.Yields (fun _ => True) Job.clock := fun _ =>
  ⟨{ names := rfl, stores := fun _ => rfl, registry := rfl }, fun _ _ => trivial⟩

theorem yields_prepare (app : Application) (s : Schema) (src : Source) (ctx : Context) :
    Job.Yields (fun _ => True) (app.prepare s src ctx) := by
  refine .bind (P := fun _ => True) (.ofOutcome fun _ _ => trivial) fun request _ => ?_
  cases request with
  | none => exact .pure trivial
  | some request =>
      refine yields_clock.bind fun now _ => ?_
      refine .bind (P := fun _ => True) (.ofOutcome fun _ _ => trivial) fun plan _ => ?_
      refine .bind (P := fun _ => True) (fun w => ⟨(app.runJob_fetch ctx _ _ w).1, fun _ _ => trivial⟩)
        fun fetched _ => ?_
      dsimp only
      split
      · exact .pure trivial
      · exact .pure trivial

/-- Records that were fetched for a queryset: those of the store of the database that is meant, or none of
nothing. -/
def Fetched (app : Application) (ctx : Context) (w : World) (qs : Queryset) (columns : List SelectColumn)
    (fetched : List Record) : Prop :=
  qs.isNone ∧ fetched = [] ∨ ∃ name, app.databaseOf ctx qs = .ok name ∧ name ∈ w.databases.map Prod.fst ∧
    (w.database name).store.fetch w.registry qs columns = .ok fetched

/-- What a read goes on with: nothing if no row can be meant or none is fetched, and otherwise a plan with
the distinct fetched rows, prefilled. -/
theorem prepare_eq_ok {prepared : Option (ReadPlan × List Record)}
    (h : (w.runJob (app.prepare s src ctx)).1 = .ok prepared) :
    s.request? app.registry src ctx.single = .ok none ∧ prepared = none ∨
    ∃ request now plan fetched, s.request? app.registry src ctx.single = .ok (some request) ∧
      (w.runJob Job.clock).1 = .ok now ∧
      ReadPlan.make app.registry s ctx request.rows.isSliced now = .ok plan ∧
      app.Fetched ctx w request.rows plan.columns fetched ∧
      prepared = if (distinctRows request.order s.pkName fetched).isEmpty then none
        else some (plan, (distinctRows request.order s.pkName fetched).map plan.prefill) := by
  obtain ⟨request, hrequest, h⟩ := World.runJob_bind_eq_ok h
  cases request with
  | none =>
      cases h
      exact .inl ⟨hrequest, rfl⟩
  | some request =>
      obtain ⟨now, hnow, h⟩ := World.runJob_bind_eq_ok h
      obtain ⟨plan, hplan, h⟩ := World.runJob_bind_eq_ok h
      obtain ⟨fetched, hfetched, h⟩ := World.runJob_bind_eq_ok h
      refine .inr ⟨request, now, plan, fetched, hrequest, hnow, hplan, ?_, ?_⟩
      · -- Reading the clock has changed nothing in the stores.
        have hclock := (yields_clock w).1
        refine ((app.runJob_fetch ctx _ _ _).2 fetched hfetched).imp_right ?_
        rintro ⟨name, hdatabase, hname, hfetch⟩
        exact ⟨name, hdatabase, hclock.names ▸ hname, hclock.store name ▸ hclock.registry ▸ hfetch⟩
      · dsimp only at h
        split at h
        · rename_i hempty
          cases h
          rw [if_pos hempty]
        · rename_i hempty
          cases h
          rw [if_neg hempty]

/-- Prepared rows are prefilled from distinct fetched ones. -/
theorem exists_of_prepare (h : (w.runJob (app.prepare s src ctx)).1 = .ok (some (plan, rows))) :
    ∃ request now fetched, s.request? app.registry src ctx.single = .ok (some request) ∧
      ReadPlan.make app.registry s ctx request.rows.isSliced now = .ok plan ∧
      rows = (distinctRows request.order s.pkName fetched).map plan.prefill ∧ rows ≠ [] ∧
      app.Fetched ctx w request.rows plan.columns fetched := by
  rcases prepare_eq_ok h with ⟨_, hnone⟩ | ⟨request, now, plan', fetched, hrequest, -, hplan, hfetched, hsome⟩
  · cases hnone
  · split at hsome
    · cases hsome
    · rename_i hne
      cases hsome
      refine ⟨request, now, fetched, hrequest, hplan, rfl, ?_, hfetched⟩
      rw [List.isEmpty_iff] at hne
      simpa using hne

variable (hkey : s.KeyField app.registry key)
include hkey

theorem made_of_prepare (h : (w.runJob (app.prepare s src ctx)).1 = .ok (some (plan, rows))) :
    plan.Made s key ctx ∧ rows ≠ [] := by
  obtain ⟨_, _, _, _, hplan, _, hne, _⟩ := exists_of_prepare h
  exact ⟨ReadPlan.made_of_make hkey hplan, hne⟩

theorem keys_of_prepare (h : (w.runJob (app.prepare s src ctx)).1 = .ok (some (plan, rows))) :
    PreparedKeys s key rows := by
  obtain ⟨request, _, fetched, _, hplan, rfl, _, _⟩ := exists_of_prepare h
  have hmade := ReadPlan.made_of_make hkey hplan
  unfold PreparedKeys
  split
  · rename_i hisolated
    intro row hrow
    obtain ⟨row, _, rfl⟩ := List.mem_map.mp hrow
    exact ReadPlan.getD_prefill_isolated hkey hmade hisolated row
  · rename_i hdirect
    rw [ReadPlan.keys_prefill hkey hmade (Bool.eq_false_iff.mpr hdirect)]
    exact (distinctRows_spec request.order s.pkName fetched).1

omit hkey in
/-- A request for keys asks for some of them, none of which is null. -/
theorem requestOfKeys_eq_some {pks : List Value} {single : Bool} {request : Request}
    (h : s.requestOfKeys pks single = some request) : ∃ wanted, (∀ k ∈ wanted, k ∈ pks ∧ k ≠ .null) ∧
      request = ⟨(Queryset.all s.model).pkIn wanted, some wanted⟩ := by
  have hgiven : ∀ k ∈ distinctOf (pks.filter fun v => !v.isNull), k ∈ pks ∧ k ≠ .null := by
    intro k hk
    exact mem_given.mp (mem_distinctOf.mp hk)
  have hwanted : ∀ k ∈ (if single then (distinctOf (pks.filter fun v => !v.isNull)).take 1
      else distinctOf (pks.filter fun v => !v.isNull)), k ∈ pks ∧ k ≠ .null := by
    intro k hk
    split at hk
    · exact hgiven k (List.mem_of_mem_take hk)
    · exact hgiven k hk
  rw [Schema.requestOfKeys] at h
  generalize (if single then (distinctOf (pks.filter fun v => !v.isNull)).take 1
      else distinctOf (pks.filter fun v => !v.isNull)) = wanted at h hwanted
  split at h
  · cases h
  · cases h
    exact ⟨wanted, hwanted, rfl⟩

section Unforced

variable {st : Store} {named : Named} (hmade : plan.Made s key ctx) (hforced : s.pkName ∉ ctx.forced.map Prod.fst)
include hmade hforced

/-- A record of a row has the key of the row if the key is a column. -/
theorem getD_of_mem_rowRecords (hnamed : ∀ path, named path = none) (hdirect : key.isIsolated = false) {pk : Value}
    {own : List Record} (hown : Store.rowRecords app.registry st s.model named plan.columns pk = .ok own)
    {row : Record} (hrow : row ∈ own) : row.getD s.pkName = pk := by
  rcases hkey.kind_cases with ⟨path, p, hkind, hp, hsteps, hname, hconcrete⟩ | ⟨target, link, value, hkind⟩
  · have hcolumn : ∀ c ∈ plan.columns, c.label = s.pkName → c.expr = .column path := by
      intro c hc hlabel
      obtain ⟨path', hkind', hexpr⟩ := hmade.columns hforced c hc hlabel
      rw [hkind] at hkind'
      cases hkind'
      exact hexpr
    obtain ⟨v, hv, hlookup⟩ := Store.lookup_of_mem_rowRecords hown hcolumn (hmade.fetched hdirect)
      (Store.columnCells_key (hnamed path) hp hsteps hname hconcrete) row hrow
    obtain rfl := List.mem_singleton.mp hv
    rw [Record.getD_eq, hlookup]
    rfl
  · rw [SchemaField.isIsolated, hkind] at hdirect
    cases hdirect

omit hkey in
/-- A record of a row has no key yet if the key leads to other rows. -/
theorem getD_of_mem_rowRecords_isolated (hisolated : key.isIsolated) {pk : Value} {own : List Record}
    (hown : Store.rowRecords app.registry st s.model named plan.columns pk = .ok own) {row : Record}
    (hrow : row ∈ own) : row.getD s.pkName = .null := by
  have hnone : ∀ c ∈ plan.columns, c.label ≠ s.pkName := by
    intro c hc hlabel
    obtain ⟨path, hkind, _⟩ := hmade.columns hforced c hc hlabel
    rw [SchemaField.isIsolated, hkind] at hisolated
    cases hisolated
  rw [Record.getD_eq, Store.lookup_of_not_mem_rowRecords hown hnone row hrow]
  rfl

/-- A row that is fetched without a forced expression under the name of the key has the key of a stored
row if the key is a column, and none if it leads to other rows. -/
theorem getD_of_mem_fetch {qs : Queryset} (hmodel : qs.model = s.model)
    (hannotated : ∀ path, Expression.annotationsOf app.registry st qs path = none) {fetched : List Record}
    (hfetch : st.fetch app.registry qs plan.columns = .ok fetched) {row : Record} (hrow : row ∈ fetched) :
    key.isIsolated = false ∧ row.getD s.pkName ∈ st.keys s.model ∨ row.getD s.pkName = .null := by
  obtain ⟨_, _, pk, _, hpk, own, hown, hrecord⟩ := Store.exists_of_mem_fetch hfetch hrow
  rw [hmodel] at hpk hown
  cases hisolated : key.isIsolated with
  | false =>
      rw [getD_of_mem_rowRecords hkey hmade hforced hannotated hisolated hown hrecord]
      exact .inl ⟨rfl, hpk⟩
  | true => exact .inr (getD_of_mem_rowRecords_isolated hmade hforced hisolated hown hrecord)

end Unforced

/-- A read for keys goes on with stored rows of these keys alone, and with none if the key leads to
other rows. -/
theorem nested_of_prepare {pks : List Value} {before : World} (hworld : before.Unchanged w)
    (hreg : app.registry = before.registry) (hplain : before.PlainKeys) (hforced : ctx.forced = [])
    (h : (w.runJob (app.prepare s (.keys pks) ctx)).1 = .ok (some (plan, rows))) :
    key.isIsolated = false ∧
      ∀ row ∈ rows, row.getD s.pkName ∈ pks ∧ row.getD s.pkName ∈ before.storedKeys := by
  obtain ⟨request, _, fetched, hrequest, hplan, rfl, hne, hfetched⟩ := exists_of_prepare h
  have hmade := ReadPlan.made_of_make hkey hplan
  obtain ⟨wanted, hwanted, rfl⟩ := requestOfKeys_eq_some (Except.ok.inj hrequest)
  -- Every row has the key of a stored row, if it has one at all, and is one of those asked for.
  have hrows : ∀ row ∈ distinctRows (some wanted) s.pkName fetched, key.isIsolated = false ∧
      row.getD s.pkName ∈ pks ∧ row.getD s.pkName ∈ before.storedKeys := by
    intro row hrow
    obtain ⟨hmem, hasked⟩ := (distinctRows_spec (some wanted) s.pkName fetched).2 row hrow
    obtain ⟨k, hk, hsame⟩ := hasked wanted rfl
    rcases hfetched with ⟨_, rfl⟩ | ⟨name, _, hname, hfetch⟩
    · cases hmem
    · rw [hworld.registry, ← hreg] at hfetch
      have hunforced : s.pkName ∉ ctx.forced.map Prod.fst := by simp [hforced]
      rcases getD_of_mem_fetch hkey hmade hunforced rfl (fun _ => rfl) hfetch hmem with ⟨hdirect, hpk⟩ | hnull
      · have hstored : row.getD s.pkName ∈ before.storedKeys := hworld.mem_storedKeys hname hpk
        have hkv : k = row.getD s.pkName :=
          hsame.elim id (Value.equiv_iff_of_isPlain (hplain _ hstored)).mp
        exact ⟨hdirect, hkv ▸ (hwanted k hk).1, hstored⟩
      · -- A null that is asked for would be a null among the keys.
        have hk' : k = .null := by
          rw [hnull] at hsame
          rcases hsame with hsame | hsame
          · exact hsame
          · cases k <;> simp [Value.equiv, Value.same] at hsame ⊢
        exact absurd hk' (hwanted k hk).2
  have hdirect : key.isIsolated = false := by
    obtain ⟨_, hrow⟩ := List.exists_mem_of_ne_nil _ hne
    obtain ⟨row, hrow, _⟩ := List.mem_map.mp hrow
    exact (hrows row hrow).1
  refine ⟨hdirect, fun _ hprefilled => ?_⟩
  obtain ⟨row, hrow, rfl⟩ := List.mem_map.mp hprefilled
  rw [ReadPlan.getD_prefill hkey hmade hdirect]
  exact (hrows row hrow).2

end Application

end RecordMapper
