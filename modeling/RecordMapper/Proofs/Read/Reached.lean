import RecordMapper.Proofs.Read.OneQuery
import RecordMapper.Proofs.Schema.ByPaths

/-!
# Reached — the rows that a relation field finds

A field over a path to other rows is declared forwards and resolved
backwards. Its path is cut behind the relations that lead to the rows
(`Approach`), and a joined query looks for the rows from which the way
back leads to an owner. A hop back leads where the hop came from, so
these are the rows that the path reaches, each of them once and in the
order of their table (`links_of_reached_rows`).
-/

namespace RecordMapper

open Registry Store

/-! ## The cut of a field's path -/

/-- A path cut in two: relations that lead to `target`, and steps to a column there. Where there are such
steps the cut is behind the last to-many relation, where there are none it is the end of the path. -/
structure Approach (reg : Registry) (m : Model) (path : String) (before : List PathStep) (s : PathStep)
    (behind : List PathStep) (target : Model) : Prop where
  resolves : ∃ p, reg.resolvePath m path = .ok p ∧ p.steps = before ++ [s] ++ behind
  leads : Leads reg m (before ++ [s]) target
  route : Route reg target behind
  single : ∀ s' ∈ behind, s'.field.type.isMany = false
  column : ∀ last ∈ behind.getLast?, s.field.type.isMany ∧ last.field.isRelation = false

/-- The names of a path up to its cut. -/
def namesBefore (path : String) (before : List PathStep) : String :=
  ".".intercalate ((dottedNames path).take (before.length + 1))

namespace SchemaField

variable {reg : Registry} {cat : Catalog} {m target : Model} {d : FieldDecl} {f f' : SchemaField}
  {path link value : String} {p : ResolvedPath}

/-- The relations of a cut path are chained, and the steps behind them are a route. -/
theorem approach_of_cutAtRows (hn : Navigable reg) (hm : m ∈ reg.models) (hp : reg.resolvePath m path = .ok p)
    {hop : ResolvedPath} {after : List PathStep} (h : CutAtRows reg p hop after target) :
    Approach reg m path hop.before hop.last after target := by
  obtain ⟨hroute, _⟩ := (resolvePath_eq_ok hn hm).mp hp
  rw [h.steps] at hroute
  have hrel : ∀ s ∈ hop.steps, s.field.isRelation := by
    intro s hs
    rcases List.mem_append.mp hs with hs | hs
    · rw [ResolvedPath.steps, List.append_assoc] at hroute
      exact hroute.isRelation (List.cons_ne_nil hop.last after) s hs
    · rw [List.mem_singleton.mp hs]
      exact isRelation_of_related (related_of_targetModel h.target)
  obtain ⟨t, hleads, hafter⟩ := hroute.cut hn hrel
  have htarget : target = t := Option.some.inj (Except.ok.inj (h.target.symm.trans (targetModel_eq hleads)))
  subst htarget
  exact ⟨⟨p, hp, h.steps⟩, hleads, hafter, h.single, h.column⟩

/-- A field that is resolved over a relation is declared by a path, which is cut where the rows are. -/
theorem exists_approach (hn : Navigable reg) (hm : m ∈ reg.models) (h : classify reg cat m d = .ok f)
    (hkind : f.kind = .isolated (.relation target link value)) :
    ∃ path before s behind, d.path? = some path ∧ Approach reg m path before s behind target ∧
      ResolvedPath.reversePath? ⟨before, s⟩ = some link ∧ value = innerPath target behind := by
  obtain ⟨mode, g, hsource, hsame⟩ := exists_sameReading h
  rw [hsame.kind] at hkind
  rcases SchemaField.ofSource_cases hsource with ⟨path, hpath, h⟩ | haside
  · obtain ⟨p, hp, -⟩ := Outcome.bind_eq_ok.mp h
    have hpathKind := pathKind_ofPath hp h
    rw [hkind] at hpathKind
    cases hpathKind with
    | rows cut back => exact ⟨path, _, _, _, hpath, approach_of_cutAtRows hn hm hp cut, back, rfl⟩
  · have hread := haside.kind
    rw [hkind] at hread
    cases hread

end SchemaField

/-! ## One field that is collected -/

theorem Application.fetch_eq_ok {app : Application} {ctx : Context} {qs : Queryset} {columns : List SelectColumn}
    {w : World} {name : String} {records : List Record} (hname : app.databaseOf ctx qs = .ok name)
    (hnone : qs.isNone = false) (hknown : name ∈ w.databases.map Prod.fst)
    (h : (w.database name).store.fetch w.registry qs columns = .ok records) :
    (w.runJob (app.fetch ctx qs columns)).1 = .ok records := by
  rw [Application.fetch, World.runJob_bind, World.runJob_ofOutcome, hname]
  simp only [hnone, Bool.false_eq_true, if_false]
  show (w.perform name (.fetch qs columns)).1 = .ok records
  rw [World.perform_known hknown, Database.perform]
  exact (congrArg (fun b => if b = true then _ else _) hnone).trans h

/-- A field with one step to take has the links that the step finds. -/
theorem Collecting.inTurn_singleton {app : Application} {ctx : Context} {f : SchemaField} {owners : List Value}
    {step : LinkStep} {qs : Queryset} {columns : List SelectColumn} {w : World} {name : String} {records : List Record}
    (hsteps : f.linkSteps owners = .ok [step]) (hquery : step.query? = some (qs, columns))
    (hname : app.databaseOf ctx qs = .ok name) (hnone : qs.isNone = false)
    (hknown : name ∈ w.databases.map Prod.fst)
    (h : (w.database name).store.fetch w.registry qs columns = .ok records) :
    (w.runJob (inTurn app ctx owners [f])).1 = .ok [⟨f, [], Links.extend [] (step.links records)⟩] := by
  have hstart : start app ctx owners f = .ok ⟨f, [step], []⟩ := by
    rw [start, hsteps, Outcome.ok_bind, settle, hquery]
    simp only [hname, hnone, Outcome.ok_bind]
    rfl
  have hadvance : (w.runJob (advance app ctx ⟨f, [step], []⟩)).1 =
      .ok ⟨f, [], Links.extend [] (step.links records)⟩ := by
    have hfetch := Application.fetch_eq_ok hname hnone hknown h
    rw [advance, World.runJob_bind, World.runJob_attempt, hquery]
    simp only [hfetch, World.runJob_ofOutcome]
    rfl
  rw [inTurn, List.mapM_cons, List.mapM_nil, World.runJob_bind, World.runJob_bind, World.runJob_ofOutcome, hstart]
  have hby : (w.runJob (advanceBy app ctx 1 ⟨f, [step], []⟩)).1 =
      .ok ⟨f, [], Links.extend [] (step.links records)⟩ := by
    rw [advanceBy, World.runJob_bind, hadvance]
    rfl
  simp only [List.length_singleton, hby]
  rfl

/-! ## The way there and the way back -/

section Reached

variable {reg : Registry} {st : Store} {m target : Model} {path : String} {before behind back : List PathStep}
  {s : PathStep} {o t : Value}

/-- What a path finds from a row: of every row of `target` that it reaches, in the order of the table, the
first value that is not null. Everything it reaches is such a row or null. -/
def PathFinds (reg : Registry) (st : Store) (m target : Model) (path value : String) (o : Value) (found : List Value) :
    Prop :=
  ∃ reached values, pathValues reg st m o path = .ok reached ∧ (∀ v ∈ reached, v = .null ∨ v ∈ st.keys target) ∧
    (((st.keys target).filter fun t => reached.contains t).mapM fun t => pathValues reg st target t value) =
      .ok values ∧
    found = values.filterMap fun vs => vs.find? fun v => !v.isNull

/-- The names of a path up to its cut lead where its relations do. -/
theorem Approach.pathValues_before (h : Approach reg m path before s behind target) (hn : Navigable reg)
    (hs : Intact reg st) (hm : m ∈ reg.models) (ho : o ∈ st.keys m) :
    pathValues reg st m o (namesBefore path before) = .ok (trail reg st (before ++ [s]) o) := by
  obtain ⟨p, hp, hsteps⟩ := h.resolves
  obtain ⟨hroute, hspells⟩ := (resolvePath_eq_ok hn hm).mp hp
  rw [hsteps] at hspells
  have hlength : (before ++ [s]).length = before.length + 1 := by simp
  have hfirst := (Spells.cut hspells).1
  rw [hlength] at hfirst
  exact pathValues_intercalate hn (List.append_nil (before ++ [s]) ▸ h.leads.route (.nil target)) (by simp) hfirst
    (fun n hmem => not_mem_of_mem_dottedNames (List.mem_of_mem_take hmem))
    (Value.isNull_of_isPlain (hs.plain m hm o ho))

/-- The path finds what is read from the rows from which the way back leads to where it starts. -/
theorem Approach.finds (h : Approach reg m path before s behind target) (hn : Navigable reg) (hs : Intact reg st)
    (hm : m ∈ reg.models) (ho : o ∈ st.keys m)
    (hiff : ∀ t ∈ st.keys target, t ∈ trail reg st (before ++ [s]) o ↔ o ∈ trail reg st back t)
    {value : String} {values : List (List Value)}
    (hvalues : (((st.keys target).filter fun t => (trail reg st back t).contains o).mapM fun t =>
      pathValues reg st target t value) = .ok values) :
    PathFinds reg st m target (namesBefore path before) value o
      (values.filterMap fun vs => vs.find? fun v => !v.isNull) := by
  have hsame : ((st.keys target).filter fun t => (trail reg st back t).contains o) =
      (st.keys target).filter fun t => (trail reg st (before ++ [s]) o).contains t := by
    refine List.filter_congr fun t ht => ?_
    rw [Bool.eq_iff_iff, List.contains_iff_mem, List.contains_iff_mem]
    exact (hiff t ht).symm
  rw [hsame] at hvalues
  exact ⟨_, values, h.pathValues_before hn hs hm ho,
    fun v hv => mem_keys_of_mem_trail hn hs h.leads ho hv, hvalues, rfl⟩

section Back

variable (hn : Navigable reg) (hs : Intact reg st) (ht : target ∈ reg.models) (hback : Leads reg target back m)
  (hne : back ≠ [])

include hn hs ht hback hne

/-- The names of the way back lead to keys, or nowhere. -/
theorem columnValues_back (hb : t ∈ st.keys target) :
    columnValues reg st target (fun _ => none) t (ResolvedPath.joinNames back) = .ok (trail reg st back t) ∧
      ∀ x, Value.float x ∉ trail reg st back t := by
  have hroute : Route reg target back := List.append_nil back ▸ hback.route (.nil m)
  refine ⟨pathValues_joinNames hn hroute hne (Value.isNull_of_isPlain (hs.plain target ht t hb)), fun x hx => ?_⟩
  rcases isPlain_of_mem_trail hn hs hback ht hb hx with hnull | hplain
  · cases hnull
  · cases hplain

/-- The rows of one owner are those from which the way back leads to it. -/
theorem select_back (hplain : o.isPlain) :
    select reg st ((Queryset.all target).filter (.test (ResolvedPath.joinNames back) (.exact o))) =
      .ok ((st.keys target).filter fun t => (trail reg st back t).contains o) := by
  refine select_passing fun t hb => ?_
  obtain ⟨hvalues, hfloat⟩ := columnValues_back hn hs ht hback hne hb
  exact holds_exact_test hplain hvalues hfloat

/-- A joined query over the way back succeeds. -/
theorem exists_fetch_back {value : String} {inner : Value → List Value}
    (hinner : ∀ t ∈ st.keys target, pathValues reg st target t value = .ok (inner t)) (owners : List Value) :
    ∃ query columns records,
      (LinkStep.joined owners ((Queryset.all target).filter (.test (ResolvedPath.joinNames back) (.oneOf owners)))
        (ResolvedPath.joinNames back) value).query? = some (query, columns) ∧
      query.isNone = false ∧ st.fetch reg query columns = .ok records := by
  let passing (t : Value) : Bool :=
    ((Condition.test (ResolvedPath.joinNames back) (.oneOf owners)).holds
      (columnValues reg st target (fun _ => none) t)).toOption.getD false
  have hselect : select reg st ((Queryset.all target).filter
      (.test (ResolvedPath.joinNames back) (.oneOf owners))) = .ok ((st.keys target).filter passing) := by
    refine select_passing fun t hb => ?_
    simp only [passing, passes, Condition.holds, (columnValues_back hn hs ht hback hne hb).1, Outcome.ok_bind]
    rfl
  obtain ⟨f, hpk, hname, hconcrete⟩ := exists_pkField hn ht
  have hcells : ∀ t ∈ (st.keys target).filter passing,
      ∀ c ∈ [⟨Links.ownerLabel, .column (ResolvedPath.joinNames back)⟩,
        ⟨Links.keyLabel, .column target.pkName⟩, (⟨Links.valueLabel, .column value⟩ : SelectColumn)],
      ∃ cells, columnCells reg st target (fun _ => none) t c.expr = .ok cells := by
    intro t hmem c hc
    have hb := (List.mem_filter.mp hmem).1
    have hread : ∀ {path vs}, columnValues reg st target (fun _ => none) t path = .ok vs →
        ∃ cells, columnCells reg st target (fun _ => none) t (.column path) = .ok cells := by
      intro path vs hvs
      exact ⟨orNull vs, by rw [columnCells, hvs]; rfl⟩
    simp only [List.mem_cons, List.not_mem_nil, or_false] at hc
    rcases hc with rfl | rfl | rfl
    · exact hread (columnValues_back hn hs ht hback hne hb).1
    · exact ⟨_, columnCells_key rfl hpk rfl hname hconcrete⟩
    · exact hread (hinner t hb)
  obtain ⟨records, hrecords⟩ := exists_fetch rfl hselect hcells
  exact ⟨_, _, records, rfl, rfl, hrecords⟩

/-- For an owner the joined query finds the values of the rows from which the way back leads to it. -/
theorem lookup_links_back {value : String} {owners : List Value} {query : Queryset} {columns : List SelectColumn}
    (hquery : (LinkStep.joined owners
      ((Queryset.all target).filter (.test (ResolvedPath.joinNames back) (.oneOf owners)))
      (ResolvedPath.joinNames back) value).query? = some (query, columns))
    {records : List Record} (h : st.fetch reg query columns = .ok records) (ho : o ∈ owners) (hplain : o.isPlain) :
    ∃ values, (((st.keys target).filter fun t => (trail reg st back t).contains o).mapM fun t =>
        pathValues reg st target t value) = .ok values ∧
      (Links.ofRows owners records).lookup o =
        Links.unlessEmpty (values.filterMap fun vs => vs.find? fun v => !v.isNull) := by
  obtain ⟨key, hpk, hname, hconcrete⟩ := exists_pkField hn ht
  have hfloat : ∀ t ∈ st.keys target, ∀ vs,
      columnValues reg st target (fun _ => none) t (ResolvedPath.joinNames back) = .ok vs →
        ∀ x, Value.float x ∉ vs := by
    intro t hb vs hvs
    obtain ⟨hvalues, hfloat⟩ := columnValues_back hn hs ht hback hne hb
    exact Except.ok.inj (hvalues.symm.trans hvs) ▸ hfloat
  have hopen : (Queryset.all target).isSliced = false := rfl
  obtain ⟨rows, values, hrows, hvalues, hlookup⟩ := lookup_links_joined hopen
    ⟨_, hpk, rfl, hname, hconcrete⟩ List.not_mem_nil (hs.distinct target ht) hfloat (ranked_of_unordered rfl) hquery h
    ho hplain
  obtain rfl := Except.ok.inj ((select_back hn hs ht hback hne hplain).symm.trans hrows)
  exact ⟨values, hvalues, hlookup⟩

end Back

/-- A field over a path is resolved to what the path reaches: the links of an owner are the values that
are read from the rows behind the relations of the path. -/
theorem links_of_reached_rows {decls : List ModelDecl} (hb : Registry.build decls = .ok reg) (hl : Legible reg)
    (hk : KeysAreColumns reg) (hd : SidesAreDeclared reg) (hs : Intact reg st) (hm : m ∈ reg.models) {cat : Catalog}
    {d : FieldDecl} {f : SchemaField} {link value : String} (hf : SchemaField.classify reg cat m d = .ok f)
    (hkind : f.kind = .isolated (.relation target link value)) :
    ∃ path before s behind, d.path? = some path ∧ Approach reg m path before s behind target ∧
      value = innerPath target behind ∧
      ∀ owners ⊆ st.keys m, ∀ (app : Application) (ctx : Context) (w : World) (name : String),
        app.databaseOf ctx (.all target) = .ok name → name ∈ w.databases.map Prod.fst →
        (w.database name).store = st → w.registry = reg →
        ∃ links, (w.runJob (Collecting.inTurn app ctx owners [f])).1 = .ok [⟨f, [], links⟩] ∧
          (∀ o ∈ owners, ∃ found, PathFinds reg st m target (namesBefore path before) value o found ∧
            links.lookup o = Links.unlessEmpty found) ∧
          ∀ o ∉ owners, links.lookup o = none := by
  have hn := navigable_of_build hb hl hk hd
  obtain ⟨path, before, s, behind, hpath, happroach, hlink, hvalue⟩ := SchemaField.exists_approach hn hm hf hkind
  refine ⟨path, before, s, behind, hpath, happroach, hvalue, ?_⟩
  intro owners howners app ctx w name hname hknown hstore hreg
  have ht := happroach.leads.mem_models hm
  obtain ⟨back, hback, hne, rfl, hiff⟩ := exists_back hn hs hm happroach.leads hlink
  obtain ⟨inner, hinner, -⟩ := exists_inner hn hs ht happroach.route
  have hread : ∀ t ∈ st.keys target, pathValues reg st target t value = .ok (trail reg st inner.steps t) := by
    intro t hb
    obtain ⟨hroute, hspells⟩ := (resolvePath_eq_ok hn ht).mp (hvalue ▸ hinner)
    have hnull := Value.isNull_of_isPlain (hs.plain target ht t hb)
    exact pathValues_eq_trail hn hroute (steps_ne_nil inner) hspells hnull
  obtain ⟨query, columns, records, hquery, hnone, hrecords⟩ := exists_fetch_back hn hs ht hback hne hread owners
  have hsteps : f.linkSteps owners = .ok [.joined owners ((Queryset.all target).filter
      (.test (ResolvedPath.joinNames back) (.oneOf owners))) (ResolvedPath.joinNames back) value] := by
    rw [SchemaField.linkSteps, hkind]
  have hname' : app.databaseOf ctx query = .ok name := by
    cases hquery
    exact hname
  have hrun := Collecting.inTurn_singleton hsteps hquery hname' hnone hknown (hstore ▸ hreg ▸ hrecords)
  have hlookup : ∀ o, (Links.extend [] (Links.ofRows owners records)).lookup o =
      (Links.ofRows owners records).lookup o := by
    intro o
    rw [Links.lookup_extend [] (Links.nodup_keys_ofRows owners records), List.lookup_nil, Option.or_none]
  refine ⟨_, hrun, fun o ho => ?_, fun o ho => ?_⟩
  · have hkey := howners ho
    obtain ⟨values, hvalues, hfound⟩ :=
      lookup_links_back hn hs ht hback hne hquery hrecords ho (hs.plain m hm o hkey)
    exact ⟨_, happroach.finds hn hs hm hkey (hiff o hkey) hvalues, (hlookup o).trans hfound⟩
  · exact (hlookup o).trans (Links.lookup_ofRows_of_not_mem ho records)

end Reached

/-! ## The words of authors -/

namespace Authors

/-- A world of one database. -/
def worldOf (reg : Registry) (st : Store) : World := ⟨reg, [("main", ⟨st, [], []⟩)], "main", default, 0⟩

def appOf (reg : Registry) : Application := ⟨reg, {}, ⟨["main"], "main"⟩⟩

/-- The field of a declaration that can be classified. -/
def fieldOf (reg : Registry) (m : Model) (d : FieldDecl) : SchemaField :=
  match SchemaField.classify reg {} m d with
  | .ok f => f
  | .error _ => default

/-- The words of an author's articles. -/
def words : FieldDecl := { name := "words", source := .path "articles.words" }

def wordsField : SchemaField := fieldOf (built writers) author words

theorem links_of_two_authors :
    (Legible (built writers) ∧ KeysAreColumns (built writers) ∧ SidesAreDeclared (built writers) ∧
      Intact (built writers) writings ∧ author ∈ (built writers).models ∧
      SchemaField.classify (built writers) {} author words = .ok wordsField) ∧
    ((worldOf (built writers) writings).runJob (Collecting.inTurn (appOf (built writers)) {} [.int 1, .int 2]
      [wordsField])).1 = .ok [⟨wordsField, [], [(.int 1, [.int 300, .int 500])]⟩] ∧
    ∃ path before s behind, words.path? = some path ∧
      Approach (built writers) author path before s behind (modelOf (built writers) "article") ∧
      "words" = innerPath (modelOf (built writers) "article") behind ∧
      ∀ owners ⊆ writings.keys author, ∀ (app : Application) (ctx : Context) (w : World) (name : String),
        app.databaseOf ctx (.all (modelOf (built writers) "article")) = .ok name →
        name ∈ w.databases.map Prod.fst → (w.database name).store = writings → w.registry = built writers →
        ∃ links, (w.runJob (Collecting.inTurn app ctx owners [wordsField])).1 = .ok [⟨wordsField, [], links⟩] ∧
          (∀ o ∈ owners, ∃ found, PathFinds (built writers) writings author (modelOf (built writers) "article")
            (namesBefore path before) "words" o found ∧ links.lookup o = Links.unlessEmpty found) ∧
          ∀ o ∉ owners, links.lookup o = none := by
  have hl : Legible (built writers) := by decide
  have hk : KeysAreColumns (built writers) := by decide
  have hd : SidesAreDeclared (built writers) := sidesAreDeclared_of_forward (by decide)
  have hs : Intact (built writers) writings := by decide
  have hm : author ∈ (built writers).models := by decide
  have hf : SchemaField.classify (built writers) {} author words = .ok wordsField := rfl
  have hkind : wordsField.kind =
      .isolated (.relation (modelOf (built writers) "article") "author" "words") := rfl
  exact ⟨⟨hl, hk, hd, hs, hm, hf⟩, rfl,
    links_of_reached_rows build_writers hl hk hd hs hm hf hkind⟩

/-! ## What the conditions rule out -/

/-- The rows of `t` have the rows they are linked to for keys, and a number. -/
def numberedByLinks : List ModelDecl :=
  [{ name := "a", fields := [.autoKey "id"] },
    { name := "l"
      fields := [.autoKey "id", .of "t" (.foreignKey "t" none), .of "a" (.foreignKey "a" none)] },
    { name := "t"
      fields :=
      [(Field.of "links" (.manyToMany "a" "l" "t" "a" none)).asPrimaryKey,
        .of "owner" (.foreignKey "a" (some "ts")), .of "n" .integer] }]

/-- Two rows of `t` of one owner that are linked to nothing. -/
def numberedRows : Store :=
  ⟨[("a", tableOf [(1, [])]),
    ("t", tableOf [(7, [("owner", .int 1), ("n", .int 5)]), (8, [("owner", .int 1), ("n", .int 6)])])]⟩

/-- The numbers of the rows that an owner has. -/
def numbers : FieldDecl := { name := "ns", source := .path "ts.n" }

/-- The other side of nothing, to be read only. -/
def sides : FieldDecl := { name := "bs", mode := some "r" }

/-- What is collected for the row of `a` under 1. -/
def collected (reg : Registry) (st : Store) (f : SchemaField) : Outcome (List Collecting) :=
  ((worldOf reg st).runJob (Collecting.inTurn (appOf reg) {} [.int 1] [f])).1

/-- Where keys are no columns, a row that the path reaches is lost; where the other side of nothing is
declared, nothing can be collected, although the path reaches nothing. -/
theorem reached_rows_lost :
    (Registry.build numberedByLinks = .ok (built numberedByLinks) ∧ Legible (built numberedByLinks) ∧
      SidesAreDeclared (built numberedByLinks) ∧ Intact (built numberedByLinks) numberedRows ∧
      .int 1 ∈ numberedRows.keys (modelOf (built numberedByLinks) "a") ∧
      ∃ f, SchemaField.classify (built numberedByLinks) {} (modelOf (built numberedByLinks) "a") numbers = .ok f ∧
        f.kind = .isolated (.relation (modelOf (built numberedByLinks) "t") "owner" "n") ∧
        PathFinds (built numberedByLinks) numberedRows (modelOf (built numberedByLinks) "a")
          (modelOf (built numberedByLinks) "t") "ts" "n" (.int 1) [.int 5, .int 6] ∧
        collected (built numberedByLinks) numberedRows f = .ok [⟨f, [], [(.int 1, [.int 5])]⟩]) ∧
    Registry.build oneSided = .ok (built oneSided) ∧ Legible (built oneSided) ∧ KeysAreColumns (built oneSided) ∧
      Intact (built oneSided) oneSidedRows ∧ .int 1 ∈ oneSidedRows.keys (modelOf (built oneSided) "a") ∧
      ∃ f, SchemaField.classify (built oneSided) {} (modelOf (built oneSided) "a") sides = .ok f ∧
        f.kind = .isolated (.relation (modelOf (built oneSided) "b") "a" "id") ∧
        PathFinds (built oneSided) oneSidedRows (modelOf (built oneSided) "a") (modelOf (built oneSided) "b") "bs" "id"
          (.int 1) [] ∧
        collected (built oneSided) oneSidedRows f =
          .error (.isolatedField "bs" (.fieldNotFound "b" "a")) := by
  refine ⟨⟨rfl, by decide, sidesAreDeclared_of_forward (by decide), by decide, by decide, ?_⟩,
    rfl, by decide, by decide, by decide, by decide, ?_⟩
  · exact ⟨_, rfl, rfl, ⟨[.int 7, .int 8], [[.int 5], [.int 6]], rfl, by decide, rfl, rfl⟩, rfl⟩
  · exact ⟨_, rfl, rfl, ⟨[], [], rfl, by decide, rfl, rfl⟩, rfl⟩

end Authors

end RecordMapper
