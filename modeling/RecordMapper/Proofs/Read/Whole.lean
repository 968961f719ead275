import RecordMapper.Proofs.Read.FieldsFound
import RecordMapper.Proofs.Read.Grouped
import RecordMapper.Proofs.Read.Heads
import RecordMapper.Proofs.Read.InStep
import RecordMapper.Proofs.Read.Returned
import RecordMapper.Proofs.Store.NamedColumns

/-!
# Whole rows — what the rows of a read are finished from

A read that succeeds finishes whole rows: those of the selected keys, one
for each, in their order. Beside the isolated fields of the plan, a whole
row has what its first record has, prefilled (`readRows_wholes`).
-/

namespace RecordMapper

variable {app : Application} {reg : Registry} {s : Schema} {key : SchemaField} {src : Source} {ctx : Context}
  {request : Request} {plan : ReadPlan} {rows : List Record} {w : World}

/-! ## Rows of a queryset -/

namespace Queryset

/-- The values of an expression on a row. -/
def cells (reg : Registry) (st : Store) (qs : Queryset) (pk : Value) (e : Expression) : Outcome (List Value) :=
  Store.columnCells reg st qs.model (Expression.annotationsOf reg st qs) pk e

/-- The first value of an expression on a row. -/
def firstCell (reg : Registry) (st : Store) (qs : Queryset) (pk : Value) (e : Expression) : Value :=
  Store.firstCell reg st qs.model (Expression.annotationsOf reg st qs) pk e

/-- The first record of a row. -/
def firstRecord (reg : Registry) (st : Store) (qs : Queryset) (columns : List SelectColumn) (pk : Value) : Record :=
  Store.firstRecord reg st qs.model (Expression.annotationsOf reg st qs) columns pk

end Queryset

/-! ## Requests -/

/-- The rows of a request can be told by their keys: their model has the primary key in a column, no annotation is
called like it, and the keys that are asked for are plain. -/
structure Request.Keyed (reg : Registry) (request : Request) : Prop where
  model : request.rows.model ∈ reg.models
  column : Store.KeyIsColumn reg request.rows.model
  annotations : ∀ name ∈ request.rows.annotations.map Prod.fst, name ≠ "pk" ∧ name ≠ request.rows.model.pkName
  plain : ∀ wanted ∈ request.order, ∀ k ∈ wanted, k.isPlain

/-- A source whose rows can be told by their keys. -/
def Source.Keyed (reg : Registry) (s : Schema) (ctx : Context) (src : Source) : Prop :=
  ∀ request, s.request? reg src ctx.single = .ok (some request) → request.Keyed reg

/-- No key is asked for twice. -/
theorem Schema.nodup_of_requestOfKeys {pks : List Value} {single : Bool}
    (h : s.requestOfKeys pks single = some request) : ∀ wanted ∈ request.order, wanted.Nodup := by
  have hdistinct : (if single then (distinctOf (pks.filter fun v => !v.isNull)).take 1
      else distinctOf (pks.filter fun v => !v.isNull)).Nodup := by
    split
    · exact (nodup_distinctOf _).sublist (List.take_sublist _ _)
    · exact nodup_distinctOf _
  rw [requestOfKeys] at h
  generalize (if single then (distinctOf (pks.filter fun v => !v.isNull)).take 1
      else distinctOf (pks.filter fun v => !v.isNull)) = wanted at h hdistinct
  split at h
  · cases h
  · cases h
    rintro _ ⟨⟩
    exact hdistinct

/-- A request that is made can have rows, and asks for no key twice. -/
theorem Schema.request_spec {single : Bool} (h : s.request? reg src single = .ok (some request)) :
    request.rows.isNone = false ∧ ∀ wanted ∈ request.order, wanted.Nodup := by
  have hkeys : ∀ {pks : List Value}, s.requestOfKeys pks single = some request →
      request.rows.isNone = false ∧ ∀ wanted ∈ request.order, wanted.Nodup := by
    intro pks h
    refine ⟨?_, nodup_of_requestOfKeys h⟩
    obtain ⟨wanted, -, rfl⟩ := Application.requestOfKeys_eq_some h
    rfl
  unfold request? at h
  split at h
  · split at h
    · cases h
    · split at h
      · cases h
      · rename_i hsome
        cases h
        refine ⟨?_, nofun⟩
        simp only [Queryset.isNone, Bool.not_eq_true, Bool.or_eq_false_iff] at hsome ⊢
        split
        · refine ⟨hsome.1, ?_⟩
          simp only [Queryset.take, Queryset.slice]
          cases hlimit : Queryset.limit _ with
          | none => rfl
          | some n =>
              rw [hlimit] at hsome
              have hn : n ≠ 0 := by simpa using hsome.2
              have hone : min n 1 ≠ 0 := by omega
              simpa [Queryset.tighter] using hone
        · exact hsome
  all_goals exact hkeys (Except.ok.inj h)

/-! ## Keys of records -/

/-- A path to the primary key of a model is one of its two names. -/
theorem Registry.path_of_key {m : Model} {path : String} {p : ResolvedPath} (hp : reg.resolvePath m path = .ok p)
    (hdirect : p.before = []) (hname : p.last.field.name = m.pkName) : path = "pk" ∨ path = m.pkName := by
  obtain ⟨name, hnames, hf⟩ := name_of_direct hp hdirect
  obtain rfl : path = name := by
    rw [← intercalate_dottedNames path, hnames]
    exact String.intercalate_singleton
  have hsame : m.fieldName path = m.pkName := (name_eq_of_field? (field_eq_ok.mp hf)).symm.trans hname
  by_contra hne
  exact Store.fieldName_ne_pkName_iff.mpr (not_or.mp hne) hsame

/-- On the rows of a model below, too, the path of a key leads to the key of each row. -/
theorem Store.columnCells_key_below {m below : Model} (hpk : below.pkName = m.pkName) (hcolumn : KeyIsColumn reg below)
    {path : String} {p : ResolvedPath} (hp : reg.resolvePath m path = .ok p) (hdirect : p.before = [])
    (hname : p.last.field.name = m.pkName) {st : Store} {named : Named} (hnamed : named path = none) (pk : Value) :
    columnCells reg st below named pk (.column path) = .ok [pk] := by
  obtain ⟨q, hq, hqdirect, hqname, hqconcrete⟩ := hcolumn
  obtain ⟨name, hnames, hf⟩ := Registry.name_of_direct hp hdirect
  obtain ⟨other, -, hother⟩ := Registry.name_of_direct hq hqdirect
  -- Both names stand for the key, so they find the same field.
  have hsame : below.fieldName name = below.fieldName other := by
    rw [← Registry.name_eq_of_field? (Registry.field_eq_ok.mp hother), hqname, Model.fieldName, hpk]
    exact (Registry.name_eq_of_field? (Registry.field_eq_ok.mp hf)).symm.trans hname
  have hfound : reg.field below name = .ok q.last.field := by
    rw [Registry.field_eq_ok, Registry.field?, hsame]
    exact Registry.field_eq_ok.mp hother
  refine columnCells_of_pathValues hnamed ?_
  rw [pathValues_of_name hnames hfound hqconcrete, hqname, cell_pkName]

section Keys

variable {decls : List ModelDecl} (hreg : Registry.build decls = .ok reg) (hs : s.Declared reg) (hkey : s.KeyField reg key)
  (hdirect : key.isIsolated = false) (hmade : plan.Made s key ctx) (hforced : s.pkName ∉ ctx.forced.map Prod.fst)
  (hrequest : s.request? reg src ctx.single = .ok (some request)) (hkeyed : request.Keyed reg)
include hreg hs hkey hdirect hmade hforced hrequest hkeyed

/-- The records that are fetched for a request bear the keys of their rows. -/
theorem getD_of_mem_keyed {st : Store} {pk : Value} {own : List Record}
    (hown : Store.rowRecords reg st request.rows.model (Expression.annotationsOf reg st request.rows) plan.columns pk =
      .ok own) : ∀ row ∈ own, row.getD s.pkName = pk := by
  have hlevel := Schema.mem_lineage_of_request hreg hs.mem_models hrequest hkeyed.model
  have hpk := (Store.pkName_of_mem_lineage hreg hkeyed.model hlevel).symm
  rcases hkey.kind_cases with ⟨path, p, hkind, hp, hsteps, hname, -⟩ | ⟨target, link, value, hkind⟩
  · have hcolumn : ∀ c ∈ plan.columns, c.label = s.pkName → c.expr = .column path := by
      intro c hc hlabel
      obtain ⟨path', hkind', hexpr⟩ := hmade.columns hforced c hc hlabel
      rw [hkind] at hkind'
      cases hkind'
      exact hexpr
    have hnamed : Expression.annotationsOf reg st request.rows path = none := by
      refine Expression.annotationsOf_eq_none fun hmem => ?_
      obtain ⟨halias, hne⟩ := hkeyed.annotations path hmem
      rcases Registry.path_of_key hp hsteps hname with hpath | hpath
      · exact halias hpath
      · exact hne (hpath.trans hpk.symm)
    intro row hrow
    obtain ⟨v, hv, hlookup⟩ := Store.lookup_of_mem_rowRecords hown hcolumn (hmade.fetched hdirect)
      (Store.columnCells_key_below hpk hkeyed.column hp hsteps hname hnamed pk) row hrow
    obtain rfl := List.mem_singleton.mp hv
    rw [Record.getD_eq, hlookup]
    rfl
  · rw [SchemaField.isIsolated, hkind] at hdirect
    cases hdirect

end Keys

/-! ## Fields put in -/

/-- Of lists that are related item by item, every item of the first is related to one of the second. -/
theorem exists_of_mem_forall₂ {α β : Type} {R : α → β → Prop} {as : List α} {bs : List β} (h : List.Forall₂ R as bs)
    {a : α} (ha : a ∈ as) : ∃ b ∈ bs, R a b := by
  induction h with
  | nil => cases ha
  | @cons _ b _ bs hfirst _ ih =>
      rcases List.mem_cons.mp ha with rfl | ha
      · exact ⟨b, List.mem_cons_self, hfirst⟩
      · obtain ⟨b', hb', hr⟩ := ih ha
        exact ⟨b', List.mem_cons_of_mem b hb', hr⟩

/-- Rows that differ from others, each from the one at its place, under some names alone. -/
def SameOutside (names : List String) (rows rows' : List Record) : Prop :=
  List.Forall₂ (fun row row' : Record => ∀ name ∉ names, row'.lookup name = row.lookup name) rows rows'

namespace SameOutside

variable {names : List String} {rows rows' rows'' : List Record}

theorem refl (names : List String) (rows : List Record) : SameOutside names rows rows :=
  List.forall₂_same.mpr fun _ _ _ _ => rfl

theorem trans (h : SameOutside names rows rows') (h' : SameOutside names rows' rows'') :
    SameOutside names rows rows'' := by
  unfold SameOutside at h h' ⊢
  induction h generalizing rows'' with
  | nil =>
      cases h'
      exact .nil
  | cons hrow _ ih =>
      cases h' with
      | cons hrow' hrest => exact .cons (fun name hname => (hrow' name hname).trans (hrow name hname)) (ih hrest)

theorem exists_of_mem (h : SameOutside names rows rows') {row' : Record} (hrow' : row' ∈ rows') :
    ∃ row ∈ rows, ∀ name ∉ names, row'.lookup name = row.lookup name := exists_of_mem_forall₂ h.flip hrow'

theorem map_getD (h : SameOutside names rows rows') {name : String} (hname : name ∉ names) :
    rows'.map (·.getD name) = rows.map (·.getD name) := by
  unfold SameOutside at h
  induction h with
  | nil => rfl
  | cons hrow _ ih => rw [List.map_cons, List.map_cons, ih, Record.getD_eq, hrow name hname, ← Record.getD_eq]

/-- Putting the values of a field in changes what stands under its name alone. -/
theorem assignField (pkName : String) {name : String} (hname : name ∈ names) (values : Keyed Value)
    (rows : List Record) : SameOutside names rows (RecordMapper.assignField pkName name values rows) := by
  refine List.forall₂_map_right_iff.mpr (List.forall₂_same.mpr fun row _ other hother => ?_)
  have hne : other ≠ name := fun hsame => hother (hsame ▸ hname)
  split
  · exact Record.lookup_insert_ne row hne _
  · rfl

end SameOutside

namespace Journaling

variable {α β : Type} {read : Schema → Source → Context → Journaling (List Record)} {m : Moment}

theorem exec_bind_eq_ok {r : Journaling α} {k : α → Journaling β} {b : β} (h : ((r >>= k).exec m).1 = .ok b) :
    ∃ a, (r.exec m).1 = .ok a ∧ ((k a).exec (r.exec m).2).1 = .ok b := by
  rw [exec_bind] at h
  split at h
  · rename_i a m' hr
    exact ⟨a, by rw [hr], by rw [hr]; exact h⟩
  · cases h

/-- A field that is resolved changes the rows under its own name alone. -/
theorem sameOutside_resolveField {names : List String} {c : Collecting} (hname : c.field.name ∈ names)
    {rows' : List Record} (h : ((resolveField app read s ctx rows c).exec m).1 = .ok rows') :
    SameOutside names rows rows' := by
  obtain ⟨outcome, -, h⟩ := exec_bind_eq_ok h
  cases outcome with
  | ok values =>
      cases h
      exact .assignField s.pkName hname values rows
  | error e =>
      dsimp only at h
      split at h
      · cases h
      · cases h
        exact .refl names rows

theorem sameOutside_resolveFields {names : List String} {collected : List Collecting}
    (hnames : ∀ c ∈ collected, c.field.name ∈ names) {rows' : List Record}
    (h : ((collected.foldlM (resolveField app read s ctx) rows).exec m).1 = .ok rows') :
    SameOutside names rows rows' := by
  induction collected generalizing rows m with
  | nil =>
      cases h
      exact .refl names _
  | cons c rest ih =>
      rw [List.foldlM_cons] at h
      obtain ⟨middle, hmiddle, h⟩ := exec_bind_eq_ok h
      exact (sameOutside_resolveField (hnames c List.mem_cons_self) hmiddle).trans
        (ih (fun c' hc' => hnames c' (List.mem_cons_of_mem c hc')) h)

/-- Resolving rows collects the links of all fields first, then resolves the fields one after another, and finishes the
rows. -/
theorem resolveRows_eq_ok {together : Bool} {finished : List Record}
    (h : ((resolveRows app together read s ctx plan rows).exec m).1 = .ok finished) : ∃ collected wholes m',
      (m.world.runJob (app.collect together ctx plan (rows.map (·.getD s.pkName)))).1 = .ok collected ∧
      ((collected.foldlM (resolveField app read s ctx) rows).exec m').1 = .ok wholes ∧
      finished = wholes.map plan.finish := by
  obtain ⟨_, -, h⟩ := exec_bind_eq_ok h
  obtain ⟨collected, hcollected, h⟩ := exec_bind_eq_ok h
  obtain ⟨wholes, hwholes, h⟩ := exec_bind_eq_ok h
  obtain ⟨_, -, h⟩ := exec_bind_eq_ok h
  cases h
  rw [exec_ofJob] at hcollected
  exact ⟨collected, wholes, _, hcollected, hwholes, rfl⟩

/-- Rows are finished from rows that differ from the prepared ones in the isolated fields of the plan alone. -/
theorem sameOutside_resolveRows {together : Bool} {finished : List Record}
    (h : ((resolveRows app together read s ctx plan rows).exec m).1 = .ok finished) :
    ∃ wholes, finished = wholes.map plan.finish ∧ SameOutside (plan.isolated.map (·.name)) rows wholes := by
  obtain ⟨collected, wholes, _, hcollected, hwholes, rfl⟩ := resolveRows_eq_ok h
  have hnames := app.returns_collect together plan _ _ _ hcollected
  exact ⟨wholes, rfl, sameOutside_resolveFields (fun c hc => List.mem_map_of_mem (hnames c hc)) hwholes⟩

end Journaling

/-! ## Whole reads -/

namespace World

/-- What a read that succeeds goes by: its request, its plan, the database that is meant, the keys that are selected
there, and the whole rows that it finishes. -/
structure ReadsBy (w : World) (cat : Catalog) (s : Schema) (src : Source) (ctx : Context) (request : Request)
    (plan : ReadPlan) (name : String) (pks : List Value) (wholes : List Record) : Prop where
  asked : s.request? w.registry src ctx.single = .ok (some request)
  planned : ∃ now, ReadPlan.make w.registry s ctx request.rows.isSliced now = .ok plan
  meant : (w.application cat).databaseOf ctx request.rows = .ok name
  selected : Store.select w.registry (w.database name).store request.rows = .ok pks
  /-- Every column has values on the rows. -/
  valued : ∀ pk ∈ pks, ∀ c ∈ plan.columns, ∃ more,
    request.rows.cells w.registry (w.database name).store pk c.expr =
      .ok (request.rows.firstCell w.registry (w.database name).store pk c.expr :: more)
  /-- The first record of a row bears its key. -/
  keyed : ∀ pk ∈ pks,
    (plan.prefill (request.rows.firstRecord w.registry (w.database name).store plan.columns pk)).getD s.pkName = pk
  apart : s.pkName ∉ plan.isolated.map (·.name)
  /-- Beside isolated fields the rows are first records, prefilled. -/
  whole : SameOutside (plan.isolated.map (·.name)) ((request.picked pks).map fun pk =>
    plan.prefill (request.rows.firstRecord w.registry (w.database name).store plan.columns pk)) wholes

namespace ReadsBy

variable {cat : Catalog} {name : String} {pks : List Value} {wholes : List Record}
  (h : w.ReadsBy cat s src ctx request plan name pks wholes)
include h

/-- The whole rows have the keys that are meant, in order. -/
theorem map_key : wholes.map (·.getD s.pkName) = request.picked pks := by
  rw [h.whole.map_getD h.apart, List.map_map]
  exact Eq.trans (List.map_congr_left fun pk hpk => h.keyed pk (Request.mem_of_picked hpk)) (List.map_id _)

/-- A whole row has what the first record of the row of its key has, prefilled, under every name that is no isolated
field's. -/
theorem lookup_whole {whole : Record} (hwhole : whole ∈ wholes) : whole.getD s.pkName ∈ pks ∧
    ∀ other ∉ plan.isolated.map (·.name), whole.lookup other = (plan.prefill
      (request.rows.firstRecord w.registry (w.database name).store plan.columns (whole.getD s.pkName))).lookup other := by
  obtain ⟨_, hrow, hsame⟩ := h.whole.exists_of_mem hwhole
  obtain ⟨pk, hpk, rfl⟩ := List.mem_map.mp hrow
  have hmem := Request.mem_of_picked hpk
  obtain rfl : whole.getD s.pkName = pk := by
    rw [Record.getD_eq, hsame _ h.apart, ← Record.getD_eq]
    exact h.keyed pk hmem
  exact ⟨hmem, hsame⟩

end ReadsBy

variable {decls : List ModelDecl} {cat : Catalog} {together : Bool} {g : Guard}

/-- A read of rows that can be told by their keys finishes one whole row for every selected one. -/
theorem readRows_wholes (hreg : Registry.build decls = .ok w.registry) (hs : s.Declared w.registry)
    (hkey : s.KeyField w.registry key) (hdirect : key.isIsolated = false) (hforced : s.pkName ∉ ctx.forced.map Prod.fst)
    (hsrc : src.Keyed w.registry s ctx) (h : (w.readRows cat together s src ctx g).1.1 = .ok rows) :
    s.request? w.registry src ctx.single = .ok none ∧ rows = [] ∨ ∃ request plan name pks wholes,
      w.ReadsBy cat s src ctx request plan name pks wholes ∧ rows = wholes.map plan.finish := by
  obtain ⟨prepared, hprepared, hrows⟩ := readRows_eq_ok h
  rcases Application.prepare_eq_ok hprepared with ⟨hnone, rfl⟩ |
    ⟨request, now, plan, fetched, hrequest, -, hmake, hfetched, rfl⟩
  · rcases hrows with ⟨-, rfl⟩ | ⟨_, _, _, _, hsome, _⟩
    · exact .inl ⟨hnone, rfl⟩
    · cases hsome
  · have hrequest : s.request? w.registry src ctx.single = .ok (some request) := hrequest
    have hkeyed := hsrc request hrequest
    obtain ⟨hsome, hnd⟩ := Schema.request_spec hrequest
    have hmade : plan.Made s key ctx := ReadPlan.made_of_make hkey hmake
    obtain ⟨name, hdatabase, -, hfetch⟩ := hfetched.resolve_left fun hempty => by
      rw [hsome] at hempty
      exact absurd hempty.1 Bool.false_ne_true
    obtain ⟨pks, hpks, hrecords, hfirst⟩ := Store.firstRows_fetch_keyed (fun pk own hown =>
      getD_of_mem_keyed hreg hs hkey hdirect hmade hforced hrequest hkeyed hown) hfetch
    have hdistinct := distinctRows_of_keyed hnd hkeyed.plain hfirst
    have hcells : ∀ pk ∈ pks, ∀ c ∈ plan.columns, ∃ more,
        request.rows.cells w.registry (w.database name).store pk c.expr =
          .ok (request.rows.firstCell w.registry (w.database name).store pk c.expr :: more) := by
      intro pk hpk c hc
      obtain ⟨own, hown⟩ := hrecords pk hpk
      exact Store.columnCells_of_rowRecords hown hc
    have hkeys : ∀ pk ∈ pks, (plan.prefill
        (request.rows.firstRecord w.registry (w.database name).store plan.columns pk)).getD s.pkName = pk := by
      intro pk hpk
      have hentry : (pk, request.rows.firstRecord w.registry (w.database name).store plan.columns pk) ∈
          firstRows s.pkName fetched := by
        rw [hfirst]
        exact List.mem_map.mpr ⟨pk, mem_distinctOf.mpr hpk, rfl⟩
      rw [ReadPlan.getD_prefill hkey hmade hdirect]
      exact ((firstRows_spec s.pkName fetched).2 _ hentry).1
    have hisolated : s.pkName ∉ plan.isolated.map (·.name) := by
      intro hmem
      obtain ⟨f, hf, hname⟩ := List.mem_map.mp hmem
      obtain ⟨hfield, hyes⟩ := hmade.isolated f hf
      rw [hkey.only f hfield hname, hdirect] at hyes
      cases hyes
    rw [hdistinct] at hrows
    refine .inr ⟨request, plan, name, pks, ?_⟩
    rcases hrows with ⟨hempty, rfl⟩ | ⟨plan', before, read, m, hsome, hresolved⟩
    · split at hempty
      · rename_i hnil
        rw [List.isEmpty_iff, List.map_eq_nil_iff] at hnil
        refine ⟨[], ⟨hrequest, ⟨now, hmake⟩, hdatabase, hpks, hcells, hkeys, hisolated, ?_⟩, rfl⟩
        rw [hnil]
        exact .nil
      · cases hempty
    · split at hsome
      · cases hsome
      · cases hsome
        rw [List.map_map] at hresolved
        obtain ⟨wholes, hfinished, hwholes⟩ := Journaling.sameOutside_resolveRows hresolved
        exact ⟨wholes, ⟨hrequest, ⟨now, hmake⟩, hdatabase, hpks, hcells, hkeys, hisolated, hwholes⟩, hfinished⟩

end World

end RecordMapper
