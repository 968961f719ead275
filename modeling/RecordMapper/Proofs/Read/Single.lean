import RecordMapper.Proofs.Read.FirstRow
import RecordMapper.Proofs.Read.OneOwner
import RecordMapper.Proofs.Read.OneQuery
import RecordMapper.Proofs.Read.Strict

/-!
# Single reads — the first row alone

Of a schema without nested schemas a single read yields the first of
the rows that are read without it (`readRows_one`), if its expressions
are the same in a window, and if its fields find for that row alone
what they find for it among the others.
-/

namespace RecordMapper

open RecordMapper.Store

/-! ## Flat reads -/

namespace Collecting

variable {app : Application} {ctx : Context} {owners : List Value} {f : SchemaField} {w : World} {links : Links}

/-- A field whose links are found is collected with them. -/
theorem collect_of_findLinks (h : (w.runJob (app.findLinks ctx owners f)).1 = .ok links) :
    (w.runJob (collect app ctx owners f)).1 = .ok ⟨f, [], links⟩ := by
  have hattempt : (w.runJob (Job.attempt (app.findLinks ctx owners f))).1 = .ok (.ok links) := by
    rw [World.runJob_attempt, h]
  rw [collect_eq_findLinks, World.runJob_bind_ok hattempt]
  rfl

/-- The links of a field that is collected are found, if its failures are reported. -/
theorem exists_findLinks {c : Collecting} (h : (w.runJob (collect app (ctx.raising true) owners f)).1 = .ok c) :
    ∃ links, (w.runJob (app.findLinks ctx owners f)).1 = .ok links := by
  have hsame : app.findLinks (ctx.raising true) owners f = app.findLinks ctx owners f := rfl
  rw [collect_eq_findLinks, hsame] at h
  obtain ⟨found, hfound, h⟩ := World.runJob_bind_eq_ok h
  rw [World.runJob_attempt] at hfound
  obtain ⟨links, rfl, -⟩ := Outcome.map_eq_ok.mp (recovered_strict h)
  exact ⟨links, Except.ok.inj hfound⟩

end Collecting

namespace World

theorem alone_collect {app : Application} {ctx : Context} {owners : List Value} {w : World} {fields : List SchemaField}
    (h : ∀ f ∈ fields, ∃ links, (w.runJob (app.findLinks ctx owners f)).1 = .ok links) :
    w.alone (fields.map (Collecting.collect app ctx owners)) = some (w.collectedOf app ctx owners fields) := by
  induction fields with
  | nil => rfl
  | cons f rest ih =>
      obtain ⟨links, hlinks⟩ := h f List.mem_cons_self
      rw [List.map_cons, alone_cons, Collecting.collect_of_findLinks hlinks,
        ih fun f' hf' => h f' (List.mem_cons_of_mem f hf'), collectedOf, collectedOf, List.map_cons, linksOf_eq hlinks]
      rfl

end World

namespace Application

variable {app : Application} {s : Schema} {src : Source} {ctx : Context} {plan : ReadPlan} {before : List Record}
  {w : World} {together : Bool}

/-- After rows are prepared, links are collected as every field has them from the start. -/
theorem collect_of_prepare (app : Application) (s : Schema) (src : Source) (ctx : Context) (hw : w.Still)
    (together : Bool) (plan : ReadPlan) (owners : List Value) :
    ((w.runJob (app.prepare s src ctx)).2.runJob (app.collect together ctx plan owners)).1.toOption =
      w.alone (plan.isolated.map (Collecting.collect app ctx owners)) := by
  have htwin : World.Twin w (w.runJob (app.prepare s src ctx)).2 :=
    World.SameStores.twin hw (yields_prepare app s src ctx w).1.toSameStores
  have hcollects : Job.Collects _ (app.collect together ctx plan owners) := collects_collect together plan owners
  rw [(hcollects _ (htwin.toAlike.still hw)).2, World.alone_twin htwin hw]

/-- A flat read puts the links that are found for its fields into the rows that it has prepared. -/
theorem flatRows_of_found (hw : w.Still) (hprepared : (w.runJob (app.prepare s src ctx)).1 = .ok (some (plan, before)))
    (hfound : ∀ f ∈ plan.isolated,
      ∃ links, (w.runJob (app.findLinks ctx (before.map (·.getD s.pkName)) f)).1 = .ok links) :
    (w.runJob (app.flatRows together s src ctx)).1 = .ok (before.map fun row =>
      plan.finish (w.wholeRow app ctx s.pkName (before.map (·.getD s.pkName)) plan.isolated row)) := by
  have hcollected := Outcome.toOption_eq_some.mp
    ((collect_of_prepare app s src ctx hw together plan _).trans (World.alone_collect hfound))
  rw [flatRows, World.runJob_bind_ok hprepared]
  dsimp only
  rw [World.runJob_bind_ok hcollected, Collecting.place_eq_map, List.map_map]
  rfl

/-- A flat read that succeeds although every failure is reported finds the links of its fields. -/
theorem found_of_flatRows (hw : w.Still) (hprepared : (w.runJob (app.prepare s src ctx)).1 = .ok (some (plan, before)))
    {rows : List Record} (h : (w.runJob (app.flatRows together s src (ctx.raising true))).1 = .ok rows) :
    ∀ f ∈ plan.isolated, ∃ links, (w.runJob (app.findLinks ctx (before.map (·.getD s.pkName)) f)).1 = .ok links := by
  have hprepared : (w.runJob (app.prepare s src (ctx.raising true))).1 = .ok (some (plan, before)) := hprepared
  rw [flatRows, World.runJob_bind_ok hprepared] at h
  obtain ⟨collected, hcollected, -⟩ := World.runJob_bind_eq_ok h
  have halone := collect_of_prepare app s src (ctx.raising true) hw together plan (before.map (·.getD s.pkName))
  rw [hcollected] at halone
  intro f hf
  cases hc : (w.runJob (Collecting.collect app (ctx.raising true) (before.map (·.getD s.pkName)) f)).1 with
  | ok c => exact Collecting.exists_findLinks hc
  | error e =>
      rw [World.alone_eq_none (List.mem_map_of_mem hf) hc] at halone
      cases halone

end Application

/-! ## The first row -/

namespace Application

variable {app : Application} {s : Schema} {key : SchemaField} {ctx : Context} {plan : ReadPlan} {w : World}
  {qs : Queryset} {first : Record} {others : List Record}

/-- Where more rows than one are prepared for a queryset, the key is a column. -/
theorem direct_of_prepare (happ : app.registry = w.registry) (hkey : s.KeyField app.registry key)
    (hmodel : qs.model = s.model) (hall : ctx.single = false) (hforced : s.pkName ∉ ctx.forced.map Prod.fst)
    (hothers : others ≠ [])
    (h : (w.runJob (app.prepare s (.queryset qs) ctx)).1 = .ok (some (plan, first :: others))) :
    key.isIsolated = false := by
  by_contra hisolated
  rw [Bool.not_eq_false] at hisolated
  obtain ⟨request, now, fetched, hrequest, hplan, hrows, -, hfetched⟩ := exists_of_prepare h
  obtain ⟨rfl, hnothing, -⟩ := request_queryset (hall ▸ hrequest)
  obtain ⟨name, -, -, hfetch⟩ := hfetched.resolve_left fun hnone => by
    rw [hnothing] at hnone
    exact absurd hnone.1 Bool.false_ne_true
  -- No record has a key yet, so they all come down to one row.
  have hnull : ∀ row ∈ fetched, row.getD s.pkName = .null := by
    intro row hrow
    obtain ⟨_, _, pk, _, _, own, hown, hmem⟩ := exists_of_mem_fetch hfetch hrow
    rw [← happ, hmodel] at hown
    exact getD_of_mem_rowRecords_isolated (ReadPlan.made_of_make hkey hplan) hforced hisolated hown hmem
  obtain ⟨hnd, hmem⟩ := distinctRows_spec none s.pkName fetched
  have hkeys : ∀ k ∈ (distinctRows none s.pkName fetched).map (·.getD s.pkName), k = .null :=
    List.forall_mem_map.mpr fun row hrow => hnull row (hmem row hrow).1
  rw [List.eq_replicate_of_mem hkeys, List.nodup_replicate, List.length_map] at hnd
  have hlength : (first :: others).length = _ := congrArg List.length hrows
  have hlength : others.length + 1 = (distinctRows none s.pkName fetched).length := hlength.trans (List.length_map _)
  exact hothers (List.length_eq_zero_iff.mp (by omega))

end Application

namespace World

variable {decls : List ModelDecl} {w : World} {s : Schema} {qs : Queryset} {ctx : Context} {row : Record}
  {rest : List Record}

/-- A read of one row of a queryset yields the first of the rows that the read of all yields, if no field passes over
a failure, if a window changes no expression on the first row, and if the fields tell that row apart from the others.
-/
theorem readRows_one (hreg : Registry.build decls = .ok w.registry)
    (hdots : ∀ m ∈ w.registry.models, '.' ∉ m.pkName.toList) (hs : s.Declared w.registry) (hw : w.Still)
    (hflat : s.Flat) (hmodel : qs.model = s.model) (hopen : qs.isSliced = false) (hall : ctx.single = false)
    (hforced : s.pkName ∉ ctx.forced.map Prod.fst)
    (hwindow : ∀ e ∈ qs.annotations.map Prod.snd ++ qs.ordering.map OrderTerm.expr,
      w.registry.aggregatesMany qs.model e = false)
    {cat : Catalog} {together : Bool} {g : Guard}
    (hexprs : ∀ name pk pks, (w.application cat).databaseOf ctx qs = .ok name →
      Store.select w.registry (w.database name).store qs = .ok (pk :: pks) →
        ∀ e ∈ ReadPlan.expressions s ctx, e.Steady w.registry (w.database name).store qs pk)
    (hapart : rest ≠ [] → (row.getD s.pkName).isPlain ∧ ∀ f ∈ ReadPlan.neededFields s ctx,
      w.TellsApart (w.application cat) ctx (row.getD s.pkName) (rest.map (·.getD s.pkName)) f)
    (hstrict : ∃ rows, (w.readRows cat together s (.queryset qs) (ctx.raising true) g).1.1 = .ok rows)
    (h : (w.readRows cat together s (.queryset qs) ctx g).1.1 = .ok (row :: rest)) (together' : Bool) (g' : Guard) :
    (w.readRows cat together' s (.queryset qs) ctx.one g').1.1 = .ok [row] := by
  obtain ⟨key, hkey⟩ := hs.exists_keyField (Registry.keysFound_of_build hreg hdots)
  obtain ⟨rows, hstrict⟩ := hstrict
  rw [readRows_of_flat hflat] at h hstrict ⊢
  obtain ⟨prepared, hprepared, hread⟩ := runJob_bind_eq_ok h
  cases prepared with
  | none => cases hread
  | some p =>
      obtain ⟨plan, before⟩ := p
      obtain ⟨hmade, hne⟩ := Application.made_of_prepare hkey hprepared
      obtain ⟨first, others, rfl⟩ := List.exists_cons_of_ne_nil hne
      have hfound := Application.found_of_flatRows hw hprepared hstrict
      rw [Application.flatRows_of_found hw hprepared hfound] at h
      obtain ⟨rfl, rfl⟩ := List.cons.inj (Except.ok.inj h)
      obtain ⟨columns, hprepared'⟩ :=
        Application.prepare_one rfl hw hs hkey hmodel hopen hall hforced hwindow hexprs hprepared
      obtain ⟨halone, hsame⟩ : (∀ f ∈ plan.isolated, ∃ links,
          (w.runJob ((w.application cat).findLinks ctx [first.getD s.pkName] f)).1 = .ok links) ∧
          w.wholeRow (w.application cat) ctx s.pkName [first.getD s.pkName] plan.isolated first =
            w.wholeRow (w.application cat) ctx s.pkName ((first :: others).map (·.getD s.pkName)) plan.isolated first := by
        by_cases hothers : others = []
        · subst hothers
          exact ⟨hfound, rfl⟩
        · have hdirect := Application.direct_of_prepare rfl hkey hmodel hall hforced hothers hprepared
          have hnd := Application.keys_of_prepare hkey hprepared
          rw [PreparedKeys, if_neg (Bool.eq_false_iff.mp hdirect)] at hnd
          have hfields : ∀ f ∈ plan.isolated, f.isIsolated ∧ f.name ≠ s.pkName := fun f hf => by
            obtain ⟨hmem, hisolated⟩ := hmade.isolated f hf
            refine ⟨hisolated, fun hname => ?_⟩
            rw [hkey.only f hmem hname, hdirect] at hisolated
            cases hisolated
          -- The finished rows bear the keys of the prepared ones.
          have hkeys : ∀ owners row, (plan.finish (w.wholeRow (w.application cat) ctx s.pkName owners
              plan.isolated row)).getD s.pkName = row.getD s.pkName := fun owners row => by
            rw [ReadPlan.getD_finish hkey hs.nodup_names hmade, if_neg hforced,
              getD_wholeRow fun f hf => (hfields f hf).2]
          have hneeded : ∀ f ∈ plan.isolated, f ∈ ReadPlan.neededFields s ctx := by
            obtain ⟨_, _, _, -, hplan, -⟩ := Application.exists_of_prepare hprepared
            obtain ⟨_, _, -, -, rfl⟩ := ReadPlan.make_eq_ok hplan
            exact fun f hf => (List.mem_filter.mp hf).1
          obtain ⟨hplain, htells⟩ := hapart (by simpa using hothers)
          rw [List.map_map] at htells
          simp only [Function.comp_def, hkeys] at hplain htells
          exact put_alone hw rfl hplain hnd hfields (fun f hf => htells f (hneeded f hf)) hfound
      rw [Application.flatRows_of_found hw hprepared' halone]
      exact congrArg (fun whole => Except.ok [plan.finish whole]) hsame

/-! ## Portraits of authors -/

namespace Portraits

open Registry (built modelOf writers writings)
open Reports (office)

def author : Model := modelOf (built writers) "author"

def article : Model := modelOf (built writers) "article"

/-- All articles, the longest first. -/
def byWords : Queryset := (Queryset.all article).orderBy [⟨.column "words", true, .least⟩]

/-- All authors by their keys, with twice the key beside each. -/
def authors : Queryset :=
  ((Queryset.all author).annotate "twice" (.arith .add (.column "id") (.column "id"))).orderBy
    [⟨.column "id", false, .least⟩]

/-- One call for all keys, which gives each of them back. -/
def echo : FieldFunction := ⟨.batch fun pks => .ok (pks.map fun pk => (pk, .value pk)), none⟩

/-- The schema of an author with what she has written. -/
def portrait : Schema :=
  match Schema.build (built writers) {} "Portrait" author
    [{ name := "id" }, { name := "output", source := .expression Registry.output }, { name := "articles" },
      { name := "longest", source := .queryset byWords, link := some "author" },
      { name := "echo", source := .function echo, single := some true }] with
  | .ok s => s
  | .error _ => default

def firstPortrait : Record :=
  [("id", .int 1), ("output", .int 802), ("articles", .list [.int 1, .int 2]), ("longest", .list [.int 2, .int 1]),
    ("echo", .int 1)]

def otherPortraits : List Record :=
  [[("id", .int 2), ("output", .null), ("articles", .list []), ("longest", .list []), ("echo", .int 2)]]

theorem steady_output : ∀ e ∈ ReadPlan.expressions portrait {},
    e.Steady (built writers) writings authors (.int 1) := by
  have hexprs : ReadPlan.expressions portrait {} = [Registry.output] := rfl
  have hn : Registry.Navigable (built writers) :=
    Registry.navigable_of_build Registry.build_writers (by decide) (by decide)
      (Registry.sidesAreDeclared_of_forward (by decide))
  obtain ⟨hcount, hsum⟩ := Registry.output_rearrangeable
  rw [hexprs, List.forall_mem_singleton]
  have hfree : ∀ path, path = "articles" ∨ path = "articles.words" →
      Expression.annotationsOf (built writers) writings authors path = none := by
    rintro _ (rfl | rfl) <;> rfl
  exact ⟨⟨_, Registry.detach_output⟩,
    .rearranged hn Registry.writings_consistent rfl (fun path h => hfree path (.inl (List.mem_singleton.mp h))) hcount,
    .rearranged hn Registry.writings_consistent rfl (fun path h => hfree path (.inr (List.mem_singleton.mp h))) hsum⟩

theorem ranked_byWords :
    Store.Ranked (built writers) writings (byWords.filter (.test "author" (.oneOf [.int 1, .int 2]))) := by
  intro pks values hpks terms hvalues
  obtain rfl : [.int 2, .int 1] = pks := Except.ok.inj hpks
  obtain rfl : [[.int 500], [.int 300]] = values := Except.ok.inj hvalues
  decide

theorem tellsApart_portrait : ∀ f ∈ portrait.fieldList,
    office.TellsApart (office.application {}) {} (.int 1) [.int 2] f := by
  have hkinds : portrait.fieldList.map (·.kind) = [.column "id", .expression Registry.output,
      .isolated (.relation article "author" "id"), .isolated (.queryset byWords "author" "id"),
      .isolated (.function echo)] := rfl
  intro f hf
  have hkind : f.kind ∈ portrait.fieldList.map (·.kind) := List.mem_map_of_mem hf
  rw [hkinds] at hkind
  refine ⟨fun h hopen hname => ?_, fun h hcall houtputs => ?_⟩
  · rw [h] at hkind
    obtain ⟨rfl, rfl, rfl⟩ : _ = byWords ∧ _ = "author" ∧ _ = "id" := by simpa using hkind
    obtain rfl := Except.ok.inj hname
    exact ranked_byWords
  · rw [h] at hkind
    obtain rfl : _ = echo := by simpa using hkind
    cases hcall
    cases houtputs
    exact ⟨_, rfl, rfl⟩

/-- The first author is read alone as she is read among all. -/
theorem readRows_one_portrait :
    (Registry.build writers = .ok office.registry ∧ (∀ m ∈ office.registry.models, '.' ∉ m.pkName.toList) ∧
      portrait.Declared office.registry ∧ office.Still ∧ portrait.Flat ∧ authors.model = portrait.model ∧
      authors.isSliced = false ∧ ({} : Context).single = false ∧
      portrait.pkName ∉ ({} : Context).forced.map Prod.fst ∧
      (∀ e ∈ authors.annotations.map Prod.snd ++ authors.ordering.map OrderTerm.expr,
        office.registry.aggregatesMany authors.model e = false) ∧
      (∀ name pk pks, (office.application {}).databaseOf {} authors = .ok name →
        Store.select office.registry (office.database name).store authors = .ok (pk :: pks) →
          ∀ e ∈ ReadPlan.expressions portrait {}, e.Steady office.registry (office.database name).store authors pk) ∧
      (otherPortraits ≠ [] → (firstPortrait.getD portrait.pkName).isPlain ∧ ∀ f ∈ ReadPlan.neededFields portrait {},
        office.TellsApart (office.application {}) {} (firstPortrait.getD portrait.pkName)
          (otherPortraits.map (·.getD portrait.pkName)) f) ∧
      (∃ rows, (office.readRows {} false portrait (.queryset authors) (({} : Context).raising true) .empty).1.1 =
        .ok rows) ∧
      (office.readRows {} false portrait (.queryset authors) {} .empty).1.1 = .ok (firstPortrait :: otherPortraits)) ∧
    (office.readRows {} true portrait (.queryset authors) ({} : Context).one .empty).1.1 = .ok [firstPortrait] := by
  have hreg : Registry.build writers = .ok office.registry := rfl
  have hdots : ∀ m ∈ office.registry.models, '.' ∉ m.pkName.toList := by decide
  have hbuild : Schema.build (built writers) {} "Portrait" author
    [{ name := "id" }, { name := "output", source := .expression Registry.output }, { name := "articles" },
      { name := "longest", source := .queryset byWords, link := some "author" },
      { name := "echo", source := .function echo, single := some true }] = .ok portrait := rfl
  have hs : portrait.Declared office.registry := .built (by decide) hbuild
  have hflat : portrait.Flat := by
    have hnone : ∀ f ∈ portrait.fieldList, f.nested = none := by decide +kernel
    exact hnone
  have hforced : portrait.pkName ∉ ({} : Context).forced.map Prod.fst := List.not_mem_nil
  have hwindow : ∀ e ∈ authors.annotations.map Prod.snd ++ authors.ordering.map OrderTerm.expr,
      office.registry.aggregatesMany authors.model e = false := by
    have hterms : authors.annotations.map Prod.snd ++ authors.ordering.map OrderTerm.expr =
        [.arith .add (.column "id") (.column "id"), .column "id"] := rfl
    rw [hterms]
    exact List.forall_mem_cons.mpr ⟨rfl, List.forall_mem_singleton.mpr rfl⟩
  have hexprs : ∀ name pk pks, (office.application {}).databaseOf {} authors = .ok name →
      Store.select office.registry (office.database name).store authors = .ok (pk :: pks) →
        ∀ e ∈ ReadPlan.expressions portrait {}, e.Steady office.registry (office.database name).store authors pk := by
    intro name pk pks hname hpks
    obtain rfl := Except.ok.inj hname
    obtain ⟨rfl, rfl⟩ : Value.int 1 = pk ∧ [Value.int 2] = pks := List.cons.inj (Except.ok.inj hpks)
    exact steady_output
  have hapart : otherPortraits ≠ [] → (firstPortrait.getD portrait.pkName).isPlain ∧
      ∀ f ∈ ReadPlan.neededFields portrait {}, office.TellsApart (office.application {}) {}
        (firstPortrait.getD portrait.pkName) (otherPortraits.map (·.getD portrait.pkName)) f := fun _ =>
    ⟨rfl, fun f hf => tellsApart_portrait f (ReadPlan.mem_neededFields.mp hf).1⟩
  have hstrict : ∃ rows, (office.readRows {} false portrait (.queryset authors) (({} : Context).raising true)
      .empty).1.1 = .ok rows := ⟨firstPortrait :: otherPortraits, Outcome.toOption_eq_some.mp (by decide +kernel)⟩
  have hread : (office.readRows {} false portrait (.queryset authors) {} .empty).1.1 =
      .ok (firstPortrait :: otherPortraits) := Outcome.toOption_eq_some.mp (by decide +kernel)
  exact ⟨⟨hreg, hdots, hs, rfl, hflat, rfl, rfl, rfl, hforced, hwindow, hexprs, hapart, hstrict, hread⟩,
    readRows_one hreg hdots hs rfl hflat rfl rfl rfl hforced hwindow hexprs hapart hstrict hread true .empty⟩

/-! ## What the conditions rule out -/

/-- A world with one store. -/
def worldOf (decls : List ModelDecl) (st : Store) : World :=
  { office with registry := built decls, databases := [("default", ⟨st, [], []⟩)] }

/-- A schema of the key and one more field. -/
def sample (decls : List ModelDecl) (model : String) (d : FieldDecl) : Schema :=
  match Schema.build (built decls) {} "Sample" (modelOf (built decls) model) [{ name := "id" }, d] with
  | .ok s => s
  | .error _ => default

/-- What the field shows in the first row, if the rows of such a schema can be read in a context. -/
def firstShown (decls : List ModelDecl) (st : Store) (model : String) (d : FieldDecl) (ctx : Context) : Option Value := do
  let rows ← ((worldOf decls st).readRows {} false (sample decls model d)
    (.queryset (.all (modelOf (built decls) model))) ctx .empty).1.1.toOption
  (← rows.head?).lookup d.name

/-- A field that shows something else, or nothing, in a row that is read alone than in the first row of all. -/
def Differs (decls : List ModelDecl) (st : Store) (model : String) (d : FieldDecl) (among : Value)
    (alone : Option Value) : Prop :=
  Registry.build decls = .ok (built decls) ∧ (sample decls model d).Declared (built decls) ∧
    (sample decls model d).Flat ∧ firstShown decls st model d {} = some among ∧
    firstShown decls st model d ({} : Context).one = alone ∧ alone ≠ some among

theorem differs {decls : List ModelDecl} {st : Store} {model : String} {d : FieldDecl} {among : Value}
    {alone : Option Value} (hreg : Registry.build decls = .ok (built decls))
    (hm : modelOf (built decls) model ∈ (built decls).models)
    (hbuild : Schema.build (built decls) {} "Sample" (modelOf (built decls) model) [{ name := "id" }, d] =
      .ok (sample decls model d))
    (h : (∀ f ∈ (sample decls model d).fieldList, f.nested = none) ∧ firstShown decls st model d {} = some among ∧
      firstShown decls st model d ({} : Context).one = alone ∧ alone ≠ some among) :
    Differs decls st model d among alone := ⟨hreg, .built hm hbuild, h⟩

/-- The longest of an author's articles, counted from nothing. -/
def longestWords : FieldDecl :=
  { name := "words", source := .expression (.aggregateOf .max (.arith .add (.column "articles.words") (.literal (.int 0)))) }

/-- A tag that fails for the second author alone, and is passed over then. -/
def tag : FieldDecl :=
  { name := "tag"
    source := .function ⟨.perKey fun pk => if pk = .int 2 then .error (.database "down") else .ok (.value (.int 7)), none⟩
    silent := true
    single := some true }

/-- The authors that are asked for. -/
def crowd : FieldDecl :=
  { name := "crowd"
    source := .function ⟨.batch fun pks => .ok (pks.map fun pk => (pk, .value (.list pks))), none⟩
    single := some true }

/-- The number of rows of `c` behind a row of `b` that is not the only one of its `a`. -/
def countBehind : FieldDecl := { name := "cs", source := .expression (.aggregateOf .count (.column "b.cs")) }

/-- The players of a team by their ranks. -/
def players : FieldDecl := { name := "players", source := .queryset Squads.byRank, link := some "team" }

/-- Rows under numbers, one of which is none, and what is linked to them. -/
def keyedByNumber : List ModelDecl :=
  [{ name := "a", fields := [(Field.of "id" .float).asPrimaryKey] },
    { name := "t", fields := [.autoKey "id", .of "as" (.manyToMany "a" "l" "t" "a" (some "ts"))] },
    { name := "l", fields := [.autoKey "id", .of "t" (.foreignKey "t" none), .of "a" (.foreignKey "a" none)] }]

def keyedByNumberRows : Store :=
  ⟨[("a", ⟨[(.float .quietNaN, []), (.float (.ofInt 1), [])], 0⟩), ("t", Registry.tableOf [(1, [])]),
    ("l", Registry.tableOf [(1, [("t", .int 1), ("a", .float .quietNaN)]), (2, [("t", .int 1), ("a", .float (.ofInt 1))])])]⟩

/-- What is linked to a row. -/
def linked : FieldDecl := { name := "ts" }

/-- An aggregate over an expression, a failure that is passed over, a function that looks at all keys, an order that
contradicts itself, a key that is not equal to itself and a one-to-one column with a key twice make a row that is read
alone differ, each alone. -/
theorem portraits_differ :
    Differs writers writings "author" longestWords (.int 300) none ∧
      Differs writers writings "author" tag .null (some (.int 7)) ∧
      Differs writers writings "author" crowd (.list [.int 1, .int 2]) (some (.list [.int 1])) ∧
      Differs Squads.squads Squads.unnumbered "team" players (.list [.int 1, .int 3]) (some (.list [.int 3, .int 1])) ∧
      Differs keyedByNumber keyedByNumberRows "a" linked (.list [.int 1]) (some (.list [])) ∧
      Differs Registry.doubled Registry.doubledRows "a" countBehind (.int 2) (some (.int 1)) :=
  ⟨differs rfl (by decide) rfl (by decide +kernel), differs rfl (by decide) rfl (by decide +kernel),
    differs rfl (by decide) rfl (by decide +kernel), differs rfl (by decide) rfl (by decide +kernel),
    differs rfl (by decide) rfl (by decide +kernel), differs rfl (by decide) rfl (by decide +kernel)⟩

end Portraits

end World

end RecordMapper
