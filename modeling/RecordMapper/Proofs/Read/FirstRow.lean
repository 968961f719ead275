import RecordMapper.Proofs.Read.Needed
import RecordMapper.Proofs.Read.Unfiltered
import RecordMapper.Proofs.Read.Whole

/-!
# First rows — what a window of one fetches

A single read cuts the rows of a queryset by a window of one, and has
every aggregate over a to-many relation detached. If that changes no
expression on the first row, the read prepares the first of the rows
that are prepared without the window (`prepare_one`).
-/

namespace RecordMapper

open RecordMapper.Store

/-! ## Expressions on a window -/

namespace Registry

variable {reg : Registry} {st : Store} {m : Model} {named : Named} {pk : Value} {func : Aggregate} {e e' : Expression}
  {distinct : Bool} {filter : Option Condition}

/-- An aggregate that collects from no to-many relation stays as it is. -/
theorem detachAggregate_of_single (h : reg.detachAggregate m func e distinct filter = .ok e')
    (hsingle : reg.aggregatesMany m (.aggregate func e distinct filter) = false) :
    e' = .aggregate func e distinct filter := by
  unfold detachAggregate at h
  split at h
  · rename_i path
    obtain ⟨p, hp, h⟩ := Outcome.bind_eq_ok.mp h
    have hall : p.isSingle = true := by simpa [aggregatesMany, Expression.columns, hp] using hsingle
    cases hcut : p.cutAtFirstMany? with
    | none =>
        rw [hcut] at h
        exact (Except.ok.inj h).symm
    | some cut =>
        -- The step that is cut at would be a to-many relation.
        obtain ⟨hsteps, -, hmany⟩ := cutAtFirstMany?_eq_some hcut
        have hlast := List.all_eq_true.mp hall cut.1.last (by rw [hsteps]; simp)
        rw [hmany] at hlast
        cases hlast
  · exact (Except.ok.inj h).symm

/-- An aggregate that a window does not change on a row: it collects from no to-many relation, or what it collects may
come in another order and is not read under the name of an annotation. -/
inductive Steady (reg : Registry) (st : Store) (m : Model) (named : Named) (pk : Value) (func : Aggregate)
    (e : Expression) (filter : Option Condition) : Prop
  | single (h : ∀ distinct, reg.aggregatesMany m (.aggregate func e distinct filter) = false)
  | rearranged (navigable : Navigable reg) (consistent : Consistent reg st) (key : named m.pkName = none)
      (paths : ∀ path ∈ e.columns, named path = none) (h : Rearrangeable reg st m pk func e filter)

theorem keepsAggregates_steady (hm : m ∈ reg.models) (hpk : pk ∈ st.keys m) :
    KeepsAggregates reg st m named pk (Steady reg st m named pk) := by
  intro func e distinct filter e' hsteady h
  cases hsteady with
  | single hsingle =>
      obtain rfl := detachAggregate_of_single h (hsingle distinct)
      exact ⟨rfl, hsingle distinct⟩
  | rearranged hn hs hkey hpaths hordered =>
      obtain ⟨rfl, path, rfl, hadd⟩ := hordered
      have hpath : named path = none := hpaths path (by simp [Expression.columns])
      exact ⟨eval_detachAggregate hn hs hm hpk hpath hkey hadd h, aggregatesMany_detachAggregate hn hm h⟩

/-- What an aggregate is detached to is no path. -/
theorem detachAggregate_ne_column (h : reg.detachAggregate m func e distinct filter = .ok e') :
    ∀ path, e' ≠ .column path := by
  unfold detachAggregate at h
  split at h
  · obtain ⟨p, -, h⟩ := Outcome.bind_eq_ok.mp h
    cases hcut : p.cutAtFirstMany? with
    | none =>
        rw [hcut] at h
        cases h
        exact nofun
    | some cut =>
        rw [hcut] at h
        obtain ⟨target, -, h⟩ := Outcome.bind_eq_ok.mp h
        cases target with
        | none => cases h
        | some target =>
            cases hlink : cut.1.reversePath? with
            | none =>
                rw [hlink] at h
                cases h
            | some link =>
                rw [hlink] at h
                cases h
                exact nofun
  · cases h
    exact nofun

/-- Detaching keeps what an expression shows on a row if it keeps its aggregates, and the window allows for it then. -/
theorem columnCells_detach {P : Aggregate → Expression → Option Condition → Prop}
    (hk : KeepsAggregates reg st m named pk P) (he : e.EachAggregate P) (h : reg.detach m e = .ok e') :
    columnCells reg st m named pk e' = columnCells reg st m named pk e ∧ reg.aggregatesMany m e' = false := by
  obtain ⟨heval, hmany⟩ := eval_detach hk he h
  refine ⟨?_, hmany⟩
  cases e with
  | column path =>
      cases h
      rfl
  | literal v =>
      cases h
      rfl
  | subquery rows link outer value =>
      cases h
      rfl
  | call name args =>
      obtain ⟨args', -, rfl⟩ := Outcome.map_eq_ok.mp h
      simp only [columnCells, heval]
  | aggregate func of distinct filter =>
      cases e' with
      | column path => exact absurd rfl (detachAggregate_ne_column h path)
      | _ => simp only [columnCells, heval]
  | choose whens otherwise =>
      obtain ⟨whens', -, h⟩ := Outcome.bind_eq_ok.mp h
      obtain ⟨otherwise', -, h⟩ := Outcome.bind_eq_ok.mp h
      cases h
      simp only [columnCells, heval]
  | arith op l r =>
      obtain ⟨l', -, h⟩ := Outcome.bind_eq_ok.mp h
      obtain ⟨r', -, h⟩ := Outcome.bind_eq_ok.mp h
      cases h
      simp only [columnCells, heval]

end Registry

/-! ## Plans on a window -/

/-- The expression that a field is fetched by. -/
def SchemaField.expression? (f : SchemaField) : Option Expression :=
  match f.kind with
  | .expression e => some e
  | _ => none

namespace ReadPlan

variable {reg : Registry} {s : Schema} {ctx : Context} {now : Instant} {plan : ReadPlan}

/-- The expressions that a read fetches, those of fields and those that are forced. -/
def expressions (s : Schema) (ctx : Context) : List Expression :=
  (neededFields s ctx).filterMap SchemaField.expression? ++ ctx.forced.map Prod.snd

/-- A column that is detached from another, which fetches a path or one of some expressions. -/
def Detached (reg : Registry) (m : Model) (exprs : List Expression) (c c' : SelectColumn) : Prop :=
  c'.label = c.label ∧ reg.detach m c.expr = .ok c'.expr ∧ ((∃ path, c.expr = .column path) ∨ c.expr ∈ exprs)

theorem mem_expressions_of_kind {f : SchemaField} {e : Expression} (hf : f ∈ neededFields s ctx)
    (hkind : f.kind = .expression e) : e ∈ expressions s ctx :=
  List.mem_append_left _ (List.mem_filterMap.mpr ⟨f, hf, by rw [SchemaField.expression?, hkind]⟩)

/-- A plan can be made for a window if every expression can be detached. -/
theorem exists_make_sliced (now : Instant) (h : ∀ e ∈ expressions s ctx, ∃ e', reg.detach s.model e = .ok e') :
    ∃ plan, make reg s ctx true now = .ok plan := by
  have hfield : ∀ f ∈ neededFields s ctx, ∀ plan, ∃ plan', addField reg s.model true now plan f = .ok plan' := by
    intro f hf plan
    unfold addField
    cases hkind : f.kind with
    | expression e =>
        obtain ⟨e', he⟩ := h e (mem_expressions_of_kind hf hkind)
        exact ⟨_, Outcome.bind_eq_ok.mpr ⟨e', he, rfl⟩⟩
    | unmapped =>
        dsimp only
        split <;> exact ⟨_, rfl⟩
    | column path => exact ⟨_, rfl⟩
    | isolated how => exact ⟨_, rfl⟩
  have hforced : ∀ e ∈ ctx.forced, ∀ plan, ∃ plan', addForced reg s.model true plan e = .ok plan' := by
    intro e he plan
    obtain ⟨e', he⟩ := h e.2 (List.mem_append_right _ (List.mem_map_of_mem he))
    exact ⟨_, Outcome.bind_eq_ok.mpr ⟨e', he, rfl⟩⟩
  obtain ⟨middle, hmiddle⟩ := Outcome.exists_foldlM hfield ⟨[], [], [], [], (requested s ctx).map (·.name)⟩
  obtain ⟨plan, hplan⟩ := Outcome.exists_foldlM hforced middle
  exact ⟨plan, Outcome.bind_eq_ok.mpr ⟨middle, hmiddle, hplan⟩⟩

/-- Of columns that belong to the same items one by one, those at one place belong to one item. -/
theorem forall₂_meet {α β γ : Type} {R : α → β → Prop} {R' : α → γ → Prop} {Q : β → γ → Prop} {as : List α}
    {bs : List β} {cs : List γ} (h : List.Forall₂ R as bs) (h' : List.Forall₂ R' as cs)
    (hmeet : ∀ a ∈ as, ∀ b c, R a b → R' a c → Q b c) : List.Forall₂ Q bs cs := by
  induction h generalizing cs with
  | nil =>
      cases h'
      exact .nil
  | cons hfirst _ ih =>
      cases h' with
      | cons hfirst' hrest' =>
          exact .cons (hmeet _ List.mem_cons_self _ _ hfirst hfirst')
            (ih hrest' fun a ha => hmeet a (List.mem_cons_of_mem _ ha))

/-- For a window the same plan is made, with detached columns. -/
theorem exists_detached (h : make reg s ctx false now = .ok plan)
    (hexprs : ∀ e ∈ expressions s ctx, ∃ e', reg.detach s.model e = .ok e') : ∃ columns,
      make reg s ctx true now = .ok { plan with columns := columns } ∧
      List.Forall₂ (Detached reg s.model (expressions s ctx)) plan.columns columns := by
  obtain ⟨plan', hplan'⟩ := exists_make_sliced now hexprs
  obtain ⟨columns, more, hcolumns, hmore, rfl⟩ := make_eq_ok h
  obtain ⟨columns', more', hcolumns', hmore', rfl⟩ := make_eq_ok hplan'
  refine ⟨columns' ++ more', hplan', List.rel_append ?_ ?_⟩
  · refine forall₂_meet hcolumns hcolumns' fun f hf c c' hby hby' => ⟨hby'.label.trans hby.label.symm, ?_⟩
    cases hby with
    | column hkind =>
        cases hby' with
        | column hkind' =>
            obtain rfl := FieldKind.column.inj (hkind.symm.trans hkind')
            exact ⟨rfl, .inl ⟨_, rfl⟩⟩
        | expression hkind' _ => cases hkind.symm.trans hkind'
    | expression hkind hsame =>
        cases hsame
        cases hby' with
        | column hkind' => cases hkind.symm.trans hkind'
        | expression hkind' hdetach =>
            obtain rfl := FieldKind.expression.inj (hkind.symm.trans hkind')
            exact ⟨hdetach, .inr (mem_expressions_of_kind (List.mem_filter.mp hf).1 hkind)⟩
  · refine forall₂_meet hmore hmore' fun e he c c' hforces hforces' => ⟨hforces'.1.trans hforces.1.symm, ?_⟩
    have hown : e.2 = c.expr := Except.ok.inj hforces.2
    exact ⟨hown ▸ hforces'.2, .inr (hown ▸ List.mem_append_right _ (List.mem_map_of_mem he))⟩

end ReadPlan

/-! ## Rows on a window -/

namespace Store

variable {reg : Registry} {st : Store} {m : Model} {named : Named} {pk : Value} {columns columns' : List SelectColumn}
  {qs : Queryset} {fetched own : List Record}

/-- A column that shows on a row what another shows there, and that a window allows for. -/
def ShowsAlike (reg : Registry) (st : Store) (m : Model) (named : Named) (pk : Value) (c c' : SelectColumn) : Prop :=
  c'.label = c.label ∧ columnCells reg st m named pk c'.expr = columnCells reg st m named pk c.expr ∧
    reg.aggregatesMany m c'.expr = false

/-- Columns that show the same on a row make the same records of it. -/
theorem rowRecords_congr (h : List.Forall₂ (ShowsAlike reg st m named pk) columns columns') :
    rowRecords reg st m named columns' pk = rowRecords reg st m named columns pk := by
  rw [rowRecords_eq, rowRecords_eq]
  generalize ([[]] : List Record) = records
  induction h generalizing records with
  | nil => rfl
  | @cons c c' _ _ hfirst _ ih =>
      have hcells : addCells reg st m named pk records c' = addCells reg st m named pk records c := by
        rw [addCells, addCells, hfirst.1, hfirst.2.1]
      rw [List.foldlM_cons, List.foldlM_cons, hcells]
      exact congrArg _ (funext ih)

/-- Where something is fetched, some row is selected. -/
theorem exists_select_of_fetch (h : st.fetch reg qs columns = .ok fetched) (hne : fetched ≠ []) :
    ∃ pk pks, select reg st qs = .ok (pk :: pks) := by
  obtain ⟨-, pks, own, hpks, -, rfl⟩ := fetch_eq_ok_iff.mp h
  cases pks with
  | nil => exact absurd rfl hne
  | cons pk pks => exact ⟨pk, pks, hpks⟩

/-- A window of one fetches the records of the first row that is selected. -/
theorem fetch_take_one {pks : List Value} (hopen : qs.isSliced = false)
    (hwindow : ∀ e ∈ qs.annotations.map Prod.snd ++ qs.ordering.map OrderTerm.expr, reg.aggregatesMany qs.model e = false)
    (hpks : select reg st qs = .ok (pk :: pks))
    (hcolumns : List.Forall₂ (ShowsAlike reg st qs.model (Expression.annotationsOf reg st qs) pk) columns columns')
    (h : st.fetch reg qs columns = .ok fetched) : ∃ own rest, fetched = own ++ rest ∧
      rowRecords reg st qs.model (Expression.annotationsOf reg st qs) columns pk = .ok own ∧
      st.fetch reg (qs.take 1) columns' = .ok own := by
  obtain ⟨-, pks', own, hpks', hown, rfl⟩ := fetch_eq_ok_iff.mp h
  obtain rfl := Except.ok.inj (hpks.symm.trans hpks')
  have hfirst := hown pk List.mem_cons_self
  refine ⟨own pk, _, List.flatMap_cons, hfirst, fetch_eq_ok_iff.mpr ⟨?_, [pk], own, ?_, ?_, ?_⟩⟩
  · rw [Bool.and_eq_false_iff, List.any_eq_false]
    refine .inr fun e he => ?_
    rw [List.append_assoc] at he
    rcases List.mem_append.mp he with he | he
    · obtain ⟨c', hc', rfl⟩ := List.mem_map.mp he
      obtain ⟨c, -, halike⟩ := exists_of_mem_forall₂ hcolumns.flip hc'
      exact Bool.eq_false_iff.mp halike.2.2
    · exact Bool.eq_false_iff.mp (hwindow e he)
  · exact select_slice hopen hpks 0 (some 1)
  · intro pk' hpk'
    obtain rfl := List.mem_singleton.mp hpk'
    have hannotations : Expression.annotationsOf reg st (qs.take 1) = Expression.annotationsOf reg st qs := by
      cases qs
      rfl
    rw [hannotations]
    exact (rowRecords_congr hcolumns).trans hfirst
  · rw [List.flatMap_cons, List.flatMap_nil, List.append_nil]

/-- The records of a row that bear one key come down to the first of them. -/
theorem distinctRows_block {pkName : String} {row : Record} (hhead : own.head? = some row)
    (h : ∀ row' ∈ own, row'.getD pkName = row.getD pkName) : distinctRows none pkName own = [row] := by
  rw [distinctRows_eq, firstRows_eq, foldl_addFirst_block hhead h]
  rfl

theorem head?_distinctRows (pkName : String) (rows : List Record) :
    (distinctRows none pkName rows).head? = rows.head? := by
  have hfirst := head?_firstRows pkName rows
  rw [distinctRows_eq]
  simp only [List.head?_map, hfirst, Option.map_map]
  exact Option.map_id'

/-- The column of a primary key shows one value on a row, be it that of an annotation. -/
theorem columnCells_key_one {path : String} {p : ResolvedPath} {cells : List Value} (hp : reg.resolvePath m path = .ok p)
    (hdirect : p.before = []) (hname : p.last.field.name = m.pkName) (hconcrete : p.last.field.isConcrete)
    (h : columnCells reg st m named pk (.column path) = .ok cells) : ∃ v, cells = [v] := by
  cases hnamed : named path with
  | none =>
      rw [columnCells_key hnamed hp hdirect hname hconcrete] at h
      cases h
      exact ⟨pk, rfl⟩
  | some value =>
      obtain ⟨vs, hvs, h⟩ := Outcome.bind_eq_ok.mp h
      rw [columnValues, hnamed] at hvs
      obtain ⟨v, -, hvs⟩ := Outcome.bind_eq_ok.mp hvs
      cases hvs
      cases h
      exact ⟨v, rfl⟩

end Store

namespace Application

variable {app : Application} {s : Schema} {key : SchemaField} {src : Source} {ctx : Context} {plan : ReadPlan}
  {w : World} {qs : Queryset}

/-- All records of a row bear one key. -/
theorem exists_key_of_rowRecords (hkey : s.KeyField app.registry key) (hmade : plan.Made s key ctx)
    (hforced : s.pkName ∉ ctx.forced.map Prod.fst) {st : Store} {named : Named} {pk : Value} {own : List Record}
    (h : rowRecords app.registry st s.model named plan.columns pk = .ok own) :
    ∃ v, ∀ row ∈ own, row.getD s.pkName = v := by
  rcases hkey.kind_cases with ⟨path, p, hkind, hp, hsteps, hname, hconcrete⟩ | ⟨target, link, value, hkind⟩
  · have hcolumn : ∀ c ∈ plan.columns, c.label = s.pkName → c.expr = .column path := by
      intro c hc hlabel
      obtain ⟨path', hkind', hexpr⟩ := hmade.columns hforced c hc hlabel
      obtain rfl := FieldKind.column.inj (hkind.symm.trans hkind')
      exact hexpr
    obtain ⟨c, hc, hlabel⟩ := hmade.fetched (by rw [SchemaField.isIsolated, hkind])
    obtain ⟨more, hcells⟩ := columnCells_of_rowRecords h hc
    rw [hcolumn c hc hlabel] at hcells
    obtain ⟨v, hone⟩ := columnCells_key_one hp hsteps hname hconcrete hcells
    refine ⟨v, fun row hrow => ?_⟩
    obtain ⟨v', hv', hlookup⟩ := lookup_of_mem_rowRecords h hcolumn ⟨c, hc, hlabel⟩ (hone ▸ hcells) row hrow
    obtain rfl := List.mem_singleton.mp hv'
    rw [Record.getD_eq, hlookup]
    rfl
  · have hisolated : key.isIsolated := by rw [SchemaField.isIsolated, hkind]
    exact ⟨.null, fun row hrow => getD_of_mem_rowRecords_isolated hmade hforced hisolated h hrow⟩

/-- What is fetched by a plan is prepared. -/
theorem prepare_of_fetched {request : Request} {fetched : List Record} (hw : w.Still)
    (hrequest : s.request? app.registry src ctx.single = .ok (some request))
    (hplan : ReadPlan.make app.registry s ctx request.rows.isSliced w.clock = .ok plan)
    (hfetched : (w.runJob (app.fetch ctx request.rows plan.columns)).1 = .ok fetched)
    (hne : distinctRows request.order s.pkName fetched ≠ []) :
    (w.runJob (app.prepare s src ctx)).1 =
      .ok (some (plan, (distinctRows request.order s.pkName fetched).map plan.prefill)) := by
  have hclock : w.runJob Job.clock = (.ok w.clock, w.ticked) := rfl
  have hnow : (w.runJob Job.clock).1 = .ok w.clock := rfl
  rw [prepare, World.runJob_ofOutcome_bind hrequest]
  dsimp only
  rw [World.runJob_bind_ok hnow, hclock, hw.ticked, World.runJob_ofOutcome_bind hplan,
    World.runJob_bind_ok hfetched]
  rw [if_neg (by rwa [List.isEmpty_iff])]
  rfl

end Application

/-- The context of a read of one row. -/
def Context.one (ctx : Context) : Context := { ctx with single := true }

/-- An expression that a window does not change on a row: it can be detached, and the window does not change its
aggregates. -/
def Expression.Steady (reg : Registry) (st : Store) (qs : Queryset) (pk : Value) (e : Expression) : Prop :=
  (∃ e', reg.detach qs.model e = .ok e') ∧
    e.EachAggregate (Registry.Steady reg st qs.model (annotationsOf reg st qs) pk)

/-- What is detached from columns of a plan shows what they show, if a window changes none of its expressions. -/
theorem Store.showsAlike_detached {reg : Registry} {st : Store} {qs : Queryset} {pk : Value} {exprs : List Expression}
    {columns columns' : List SelectColumn} (hm : qs.model ∈ reg.models) (hpk : pk ∈ st.keys qs.model)
    (hexprs : ∀ e ∈ exprs, e.Steady reg st qs pk)
    (h : List.Forall₂ (ReadPlan.Detached reg qs.model exprs) columns columns') :
    List.Forall₂ (ShowsAlike reg st qs.model (Expression.annotationsOf reg st qs) pk) columns columns' := by
  refine h.imp fun c c' ⟨hlabel, hdetach, hexpr⟩ => ⟨hlabel, ?_⟩
  refine Registry.columnCells_detach (Registry.keepsAggregates_steady hm hpk) ?_ hdetach
  rcases hexpr with ⟨path, hpath⟩ | hmem
  · rw [hpath]
    exact trivial
  · exact (hexprs c.expr hmem).2

namespace Application

variable {app : Application} {s : Schema} {key : SchemaField} {ctx : Context} {plan : ReadPlan} {w : World}
  {qs : Queryset} {first : Record} {others : List Record}

/-- The first row of a queryset that is not cut is a window, and not of nothing. -/
theorem isSliced_take_one (hopen : qs.isSliced = false) (hnothing : qs.isNone = false) :
    (qs.take 1).isSliced = true ∧ ¬(qs.take 1).isNone := by
  obtain ⟨m, condition, annotations, ordering, offset, limit, nothing, database⟩ := qs
  obtain ⟨rfl, rfl⟩ : offset = 0 ∧ limit = none := Queryset.isSliced_eq_false.mp hopen
  have hnothing : nothing = false := (Bool.or_eq_false_iff.mp hnothing).1
  subst hnothing
  exact ⟨rfl, Bool.false_ne_true⟩

/-- A queryset is read as it is, and by a single read cut to its first row. -/
theorem request_queryset {request : Request}
    (h : s.request? app.registry (.queryset qs) false = .ok (some request)) : request = ⟨qs, none⟩ ∧ qs.isNone = false ∧
      s.request? app.registry (.queryset qs) true = .ok (some ⟨qs.take 1, none⟩) := by
  simp only [Schema.request?] at h ⊢
  split at h
  · cases h
  · rename_i hsub
    rw [if_neg hsub]
    split at h
    · cases h
    · rename_i hnone
      rw [if_neg hnone]
      cases h
      exact ⟨rfl, Bool.eq_false_iff.mpr hnone, rfl⟩

/-- A read of one row of a queryset prepares the first of the rows that the read of all prepares. -/
theorem prepare_one (happ : app.registry = w.registry) (hw : w.Still) (hs : s.Declared app.registry)
    (hkey : s.KeyField app.registry key) (hmodel : qs.model = s.model) (hopen : qs.isSliced = false)
    (hall : ctx.single = false) (hforced : s.pkName ∉ ctx.forced.map Prod.fst)
    (hwindow : ∀ e ∈ qs.annotations.map Prod.snd ++ qs.ordering.map OrderTerm.expr,
      app.registry.aggregatesMany qs.model e = false)
    (hexprs : ∀ name pk pks, app.databaseOf ctx qs = .ok name →
      select app.registry (w.database name).store qs = .ok (pk :: pks) →
        ∀ e ∈ ReadPlan.expressions s ctx, e.Steady app.registry (w.database name).store qs pk)
    (h : (w.runJob (app.prepare s (.queryset qs) ctx)).1 = .ok (some (plan, first :: others))) :
    ∃ columns, (w.runJob (app.prepare s (.queryset qs) ctx.one)).1 =
      .ok (some ({ plan with columns := columns }, [first])) := by
  rcases prepare_eq_ok h with ⟨-, hnone⟩ | ⟨request, now, plan', fetched, hrequest, hnow, hplan, hfetched, hsome⟩
  · cases hnone
  obtain rfl : w.clock = now := Except.ok.inj hnow
  split at hsome
  · cases hsome
  rename_i hne
  obtain ⟨rfl, hrows⟩ := Prod.mk.inj (Option.some.inj hsome)
  obtain ⟨rfl, hnothing, hone⟩ := request_queryset (hall ▸ hrequest)
  obtain ⟨name, hname, hknown, hfetch⟩ := hfetched.resolve_left fun hnone => by
    rw [hnothing] at hnone
    exact absurd hnone.1 Bool.false_ne_true
  have hfetch : (w.database name).store.fetch app.registry qs plan.columns = .ok fetched := happ ▸ hfetch
  have hsome : fetched ≠ [] := fun hnil => hne (by rw [hnil]; rfl)
  obtain ⟨pk, pks, hpks⟩ := exists_select_of_fetch hfetch hsome
  have hsteady := hexprs name pk pks hname hpks
  have hpk : pk ∈ (w.database name).store.keys qs.model := (select_subperm hpks).subset List.mem_cons_self
  have hm : qs.model ∈ app.registry.models := hmodel ▸ hs.mem_models
  have hplan : ReadPlan.make app.registry s ctx false w.clock = .ok plan := hopen ▸ hplan
  obtain ⟨columns, hplan', hdetached⟩ := ReadPlan.exists_detached hplan fun e he => hmodel ▸ (hsteady e he).1
  obtain ⟨own, rest, rfl, hown, hfetch'⟩ := fetch_take_one hopen hwindow hpks
    (showsAlike_detached hm hpk hsteady (hmodel ▸ hdetached)) hfetch
  refine ⟨columns, ?_⟩
  -- All records of the row bear one key, so they come down to one.
  obtain ⟨v, hv⟩ := exists_key_of_rowRecords hkey (ReadPlan.made_of_make hkey hplan) hforced (hmodel ▸ hown)
  obtain ⟨row, more, rfl⟩ := List.exists_cons_of_ne_nil (rowRecords_ne_nil hown)
  have hblock : distinctRows none s.pkName (row :: more) = [row] :=
    distinctRows_block rfl fun row' hrow' => (hv row' hrow').trans (hv row List.mem_cons_self).symm
  have hfirst : plan.prefill row = first := by
    have hhead := congrArg List.head? hrows
    rw [List.head?_map, head?_distinctRows] at hhead
    exact (Option.some.inj hhead).symm
  obtain ⟨hsliced, hnothing'⟩ := isSliced_take_one hopen hnothing
  have hmake : ReadPlan.make app.registry s ctx.one (qs.take 1).isSliced w.clock =
      .ok { plan with columns := columns } := by
    rw [hsliced]
    exact hplan'
  have hfetched : (w.runJob (app.fetch ctx.one (qs.take 1) columns)).1 = .ok (row :: more) :=
    runJob_fetch_of_store hname hknown hnothing' (happ ▸ hfetch')
  have hne : distinctRows none s.pkName (row :: more) ≠ [] := hblock ▸ List.cons_ne_nil row []
  have hone : s.request? app.registry (.queryset qs) ctx.one.single = .ok (some ⟨qs.take 1, none⟩) := hone
  have hrows' : (distinctRows none s.pkName (row :: more)).map plan.prefill = [first] := by
    rw [hblock, List.map_singleton, hfirst]
  rw [prepare_of_fetched hw hone hmake hfetched hne]
  exact congrArg (fun rows => Except.ok (some (_, rows))) hrows'

end Application

end RecordMapper
