import RecordMapper.Proofs.Read.Placed

/-!
# Settled values — what properties are made of, whatever the scopes

A property is made of its dependencies' own values, of those that a read
with other scopes shows (`readRows_computed`), unless it depends on a
computed field that comes after it, or that has dependencies of its own
which are not needed.
-/

namespace RecordMapper

/-! ## Settled fields -/

/-- A field has its own value in a read: it is not computed, nor made of rows of another schema, or it is computed from
such fields, of which all are needed and the computed ones come first. -/
inductive Schema.Settles (s : Schema) (ctx : Context) : SchemaField → Prop
  | plain {f : SchemaField} (mem : f ∈ s.fieldList) (direct : f.isComputed = false) (flat : f.nested = none) :
      Settles s ctx f
  | computed {f : SchemaField} {p : Property} (mem : f ∈ s.fieldList) (made : f.isComputed) (property : f.property = some p)
      (found : ∀ name ∈ p.deps, ∃ d ∈ s.fieldList, d.name = name)
      (needed : ∀ name ∈ p.deps, ReadPlan.needs s ctx name)
      (ordered : ∀ d ∈ s.fieldList, d.name ∈ p.deps → d.isComputed → s.Precedes d f)
      (deps : ∀ d ∈ s.fieldList, d.name ∈ p.deps → Settles s ctx d) : Settles s ctx f

namespace ReadPlan

variable {s : Schema} {ctx ctx' : Context} {plan plan' : ReadPlan} {row row' : Record}

/-- Rows that agree on what two contexts both need are computed to the same value of every field that is settled in
both. -/
theorem lookup_settled (hnames : (s.fieldList.map (·.name)).Nodup) (hreads : s.ReadsOnlyDeps)
    (hplan : plan.computed = computedFields s ctx) (hplan' : plan'.computed = computedFields s ctx')
    (hnull : ∀ d ∈ computedFields s ctx, row.lookup d.name = some .null)
    (hnull' : ∀ d ∈ computedFields s ctx', row'.lookup d.name = some .null)
    (hsame : row.restrict (shared s ctx ctx') = row'.restrict (shared s ctx ctx')) {d : SchemaField}
    (h : s.Settles ctx d) : s.Settles ctx' d → needs s ctx d.name → needs s ctx' d.name →
      (plan.compute row).lookup d.name = (plan'.compute row').lookup d.name := by
  induction h with
  | @plain d hmem hdirect hflat =>
      intro _ hneeded hneeded'
      have hother : ∀ c, ∀ g ∈ computedFields s c, g.name ≠ d.name := by
        intro c g hg hname
        obtain ⟨hgmem, -, hmade⟩ := mem_computedFields.mp hg
        rw [List.inj_on_of_nodup_map hnames hgmem hmem hname, hdirect] at hmade
        cases hmade
      have hshared : shared s ctx ctx' d.name := shared_iff.mpr ⟨⟨d, hmem, rfl, hflat⟩, hneeded, hneeded'⟩
      rw [lookup_compute (hplan ▸ hother ctx), lookup_compute (hplan' ▸ hother ctx'),
        ← Record.lookup_restrict hshared row, hsame, Record.lookup_restrict hshared row']
  | @computed d p hmem hmade hp hfound hneeds hordered hdeps ih =>
      intro h' hneeded hneeded'
      cases h' with
      | plain _ hdirect _ =>
          rw [hmade] at hdirect
          cases hdirect
      | @computed _ p' _ _ hp' _ hneeds' hordered' hdeps' =>
          rw [hp] at hp'
          cases hp'
          have hturns : ∀ c, (∀ g ∈ computedFields s c, g.name ∈ p.deps → s.Precedes g d) := by
            intro c g hg hname
            obtain ⟨hgmem, -, hgmade⟩ := mem_computedFields.mp hg
            exact hordered g hgmem hname hgmade
          rw [lookup_compute_whole hnames hreads hplan hnull (mem_computedFields.mpr ⟨hmem, hneeded, hmade⟩) hp
              (hturns ctx),
            lookup_compute_whole hnames hreads hplan' hnull' (mem_computedFields.mpr ⟨hmem, hneeded', hmade⟩) hp
              (hturns ctx')]
          refine congrArg some (hreads d hmem p hp _ _ fun name hname => ?_)
          obtain ⟨g, hg, rfl⟩ := hfound name hname
          exact ih g hg hname (hdeps' g hg hname) (hneeds _ hname) (hneeds' _ hname)

end ReadPlan

namespace World

open ReadPlan

variable {w : World} {cat : Catalog} {together : Bool} {s : Schema} {src : Source} {ctx ctx' : Context} {g : Guard}
  {request request' : Request} {plan plan' : ReadPlan} {before before' placed placed' rows rows' : List Record}
  {key : SchemaField}

namespace PlacedBy

variable (hp : w.PlacedBy cat s src ctx request plan before placed)
include hp

/-- A property that is settled is computed from what a read with other scopes shows for all that it depends on. -/
theorem computes_from_shown (hnames : (s.fieldList.map (·.name)).Nodup)
    (hforced : ∀ e ∈ ctx.forced, e.1 ∉ s.fieldList.map (·.name)) (hreads : s.ReadsOnlyDeps) {row row' : Record}
    (hrow : row ∈ placed) {f : SchemaField} (hf : f ∈ requested s ctx) (hmade : f.isComputed) (hsettled : s.Settles ctx f)
    {p : Property} (hproperty : f.property = some p)
    (hshown : ∀ d ∈ s.fieldList, d.name ∈ p.deps → needs s ctx d.name → s.Settles ctx d →
      row'.lookup d.name = (plan.compute row).lookup d.name) :
    (plan.finish row).lookup f.name = some (p.compute row') := by
  cases hsettled with
  | plain _ hdirect _ =>
      rw [hmade] at hdirect
      cases hdirect
  | @computed _ p' hmem _ hproperty' hfound hneeds hordered hdeps =>
      rw [hproperty] at hproperty'
      cases hproperty'
      have hturn := (computes hp hnames hreads hrow f (mem_computedFields.mpr ⟨hmem, needs_of_mem hf, hmade⟩) p
        hproperty).2 fun d hd hname => hordered d (mem_computedFields.mp hd).1 hname (mem_computedFields.mp hd).2.2
      rw [shows hp hnames hforced row hrow f hf, hturn]
      refine congrArg some (hreads f hmem p hproperty _ _ fun name hname => ?_)
      obtain ⟨d, hd, rfl⟩ := hfound name hname
      exact (hshown d hd hname (hneeds _ hname) (hdeps d hd hname)).symm

variable (hp' : w.PlacedBy cat s src ctx' request' plan' before' placed') (hscopes : ctx'.unscoped = ctx.unscoped)
  (hforced : ∀ e ∈ ctx.forced, e.1 ∉ s.fieldList.map (·.name)) (hkey : s.KeyField w.registry key)
  (hflat : key.nested = none)
include hp' hscopes hforced hkey hflat

/-- Two reads that differ in scopes alone compute the same values of the fields that are settled in both. -/
theorem lookup_settled (hnames : (s.fieldList.map (·.name)).Nodup) (hreads : s.ReadsOnlyDeps) :
    List.Forall₂ (fun row row' : Record => ∀ d ∈ s.fieldList, needs s ctx d.name → needs s ctx' d.name →
      s.Settles ctx d → s.Settles ctx' d → (plan'.compute row').lookup d.name = (plan.compute row).lookup d.name)
      placed placed' := by
  have hsame : List.Forall₂ (fun row row' : Record =>
      row.restrict (shared s ctx ctx') = row'.restrict (shared s ctx ctx')) placed placed' := by
    have hall : List.Forall₂ Eq _ _ := List.forall₂_eq_eq_eq ▸ map_restrict hp hp' hscopes hforced hkey hflat hnames
    rwa [List.forall₂_map_left_iff, List.forall₂_map_right_iff] at hall
  obtain ⟨now, -, hmake⟩ := hp.planned
  obtain ⟨now', -, hmake'⟩ := hp'.planned
  have hnull := lookup_computed hp hnames
  have hnull' := lookup_computed hp' hnames
  clear hp hp'
  induction hsame with
  | nil => exact .nil
  | cons hrow _ ih =>
      refine .cons (fun d hd hneeded hneeded' hsettled hsettled' => ?_)
        (ih (fun row hmem => hnull row (List.mem_cons_of_mem _ hmem))
          fun row hmem => hnull' row (List.mem_cons_of_mem _ hmem))
      exact (ReadPlan.lookup_settled hnames hreads (computed_of_make hmake) (computed_of_make hmake')
        (hnull _ List.mem_cons_self) (hnull' _ List.mem_cons_self) hrow hsettled hsettled' hneeded hneeded').symm

/-- What is settled in both of two reads that differ in scopes alone is shown by one as it stands in the whole rows of
the other. -/
theorem shown (hnames : (s.fieldList.map (·.name)).Nodup) (hreads : s.ReadsOnlyDeps) :
    List.Forall₂ (fun row row' : Record => ∀ d ∈ requested s ctx', needs s ctx d.name → s.Settles ctx d →
      s.Settles ctx' d → (plan'.finish row').lookup d.name = (plan.compute row).lookup d.name) placed placed' := by
  have hsame : ctx'.unscoped.forced = ctx.unscoped.forced := congrArg Context.forced hscopes
  have hsame : ctx'.forced = ctx.forced := hsame
  have hshows := shows hp' hnames (hsame ▸ hforced)
  have hagree := lookup_settled hp hp' hscopes hforced hkey hflat hnames hreads
  refine ((List.forall₂_and_left _ _).mpr ⟨hshows, hagree.flip⟩).flip.imp fun row row' ⟨hshow, hsettled⟩ d hd => ?_
  rw [hshow d hd]
  exact fun hneeded => hsettled d (List.mem_filter.mp hd).1 hneeded (needs_of_mem hd)

end PlacedBy

variable {decls : List ModelDecl}

/-- What a read returns for properties. Its rows show the requested fields of whole rows, which have all that is needed:
of a fetched field a value of its column. A property is computed from the whole row with null under the computed fields
that do not come before it, and so from the whole row itself if it depends on none of these. What is settled has in the
whole rows the very value that a read with any other scopes returns for it. So a property that is settled is computed
from what such a read returns for all that it depends on. -/
theorem readRows_computed (hreg : Registry.build decls = .ok w.registry)
    (hdots : ∀ m ∈ w.registry.models, '.' ∉ m.pkName.toList) (hs : s.Declared w.registry) (hw : w.Still)
    (hreads : s.ReadsOnlyDeps) (hflat : ∀ key ∈ s.fieldList, key.name = s.pkName → key.nested = none)
    (hforced : ∀ e ∈ ctx.forced, e.1 ∉ s.fieldList.map (·.name))
    (h : (w.readRows cat together s src ctx g).1.1 = .ok rows) : ∃ wholes : List Record,
    List.Forall₂ (fun row whole : Record => ∀ f ∈ requested s ctx, row.lookup f.name = whole.lookup f.name) rows wholes ∧
    (∀ whole ∈ wholes,
      (∃ request name pks pk, s.request? w.registry src ctx.single = .ok (some request) ∧
        (w.application cat).databaseOf ctx request.rows = .ok name ∧
        Store.select w.registry (w.database name).store request.rows = .ok pks ∧ pk ∈ pks ∧
        ∀ d ∈ neededFields s ctx, d.isFetched → ∃ c, d.FetchedBy w.registry s.model request.rows.isSliced c ∧
          ∃ cells, request.rows.cells w.registry (w.database name).store pk c.expr = .ok cells ∧
            ∃ v ∈ cells, whole.lookup d.name = some v) ∧
      ∀ f ∈ computedFields s ctx, ∀ p, f.property = some p →
        (∃ seen : Record, whole.lookup f.name = some (p.compute seen) ∧
          (∀ d ∈ computedFields s ctx, ¬s.Precedes d f → seen.lookup d.name = some .null) ∧
          ∀ name, (∀ d ∈ computedFields s ctx, ¬s.Precedes d f → d.name ≠ name) →
            seen.lookup name = whole.lookup name) ∧
        ((∀ d ∈ computedFields s ctx, d.name ∈ p.deps → s.Precedes d f) →
          whole.lookup f.name = some (p.compute whole))) ∧
    ∀ (ctx' : Context) (together' : Bool) (g' : Guard) (rows' : List Record), ctx'.unscoped = ctx.unscoped →
      (w.readRows cat together' s src ctx' g').1.1 = .ok rows' →
      List.Forall₂ (fun whole row' : Record => ∀ d ∈ requested s ctx', needs s ctx d.name →
        s.Settles ctx d → s.Settles ctx' d → row'.lookup d.name = whole.lookup d.name) wholes rows' ∧
      List.Forall₂ (fun row row' : Record => ∀ f ∈ requested s ctx, f.isComputed → s.Settles ctx f →
        ∀ p, f.property = some p → (∀ d ∈ s.fieldList, d.name ∈ p.deps → d ∈ requested s ctx' ∧ s.Settles ctx' d) →
          row.lookup f.name = some (p.compute row')) rows rows' := by
  obtain ⟨key, hkey⟩ := hs.exists_keyField (Registry.keysFound_of_build hreg hdots)
  have hnames := hs.nodup_names
  have hsingle : ∀ c : Context, c.unscoped = ctx.unscoped → c.single = ctx.single := by
    intro c hscopes
    have hsame : c.unscoped.single = ctx.unscoped.single := congrArg Context.single hscopes
    exact hsame
  rcases exists_placed hw h with ⟨hnone, rfl⟩ | ⟨request, plan, before, placed, hp, rfl⟩
  · refine ⟨[], .nil, nofun, fun ctx' together' g' rows' hscopes h' => ?_⟩
    rcases exists_placed hw h' with ⟨-, rfl⟩ | ⟨_, _, _, _, hp', -⟩
    · exact ⟨.nil, .nil⟩
    · have hasked := hp'.asked
      rw [hsingle ctx' hscopes, hnone] at hasked
      cases hasked
  · refine ⟨placed.map plan.compute, ?_, fun _ hwhole => ?_, fun ctx' together' g' rows' hscopes h' => ?_⟩
    · rw [List.forall₂_map_left_iff, List.forall₂_map_right_iff]
      exact List.forall₂_same.mpr fun row hrow => hp.shows hnames hforced row hrow
    · obtain ⟨row, hrow, rfl⟩ := List.mem_map.mp hwhole
      exact ⟨hp.exists_row hnames hforced hrow, hp.computes hnames hreads hrow⟩
    · rcases exists_placed hw h' with ⟨hnone, -⟩ | ⟨request', plan', before', placed', hp', rfl⟩
      · rw [hsingle ctx' hscopes, hp.asked] at hnone
        cases hnone
      · have hagree := hp.lookup_settled hp' hscopes hforced hkey (hflat key hkey.mem hkey.name) hnames hreads
        have hshown := hp.shown hp' hscopes hforced hkey (hflat key hkey.mem hkey.name) hnames hreads
        refine ⟨?_, ?_⟩
        · rwa [List.forall₂_map_left_iff, List.forall₂_map_right_iff]
        · rw [List.forall₂_map_left_iff, List.forall₂_map_right_iff]
          refine ((List.forall₂_and_left _ _).mpr ⟨fun row hrow => hrow, hshown⟩).imp
            fun row row' ⟨hrow, hshow⟩ f hf hmade hsettled p hproperty hdeps => ?_
          exact hp.computes_from_shown hnames hforced hreads hrow hf hmade hsettled hproperty
            fun d hd hname hneeded hown => hshow d (hdeps d hd hname).1 hneeded hown (hdeps d hd hname).2

/-! ## A summary of an author -/

namespace Summaries

open Registry (built modelOf writers)
open Reports (office)

/-- The number of the articles. -/
def counted : Property := ⟨["articles"], fun row => .int (.ofNat (row.getD "articles").items.length)⟩

/-- The number of the articles beside their words. -/
def summed : Property := ⟨["counted", "words"], fun row => .list [row.getD "counted", row.getD "words"]⟩

def countedField : FieldDecl := { name := "counted", source := .property counted }
def summaryField : FieldDecl := { name := "summary", source := .property summed }

/-- An author with articles that are only written, their words, and some properties. -/
def fieldsWith (properties : List FieldDecl) : List FieldDecl :=
  [{ name := "id" }, { name := "articles", mode := some "w" },
    { name := "words", source := .expression (.aggregateOf .sum (.column "articles.words")) }] ++ properties

def authorWith (properties : List FieldDecl) : Schema :=
  match Schema.build (built writers) {} "Author" (modelOf (built writers) "author") (fieldsWith properties) with
  | .ok s => s
  | .error _ => default

/-- The number comes before the summary that is made of it. -/
def author : Schema := authorWith [countedField, summaryField]

/-- The summary comes first. -/
def hasty : Schema := authorWith [summaryField, countedField]

/-- All authors. -/
def authors : Source := .queryset (.all author.model)

/-- Asks for some names alone. -/
def only (names : List String) : Context := { includes := some (.ofPaths names) }

/-- What all authors are read as. -/
def shown (s : Schema) (ctx : Context) : Option (List Record) :=
  (office.readRows {} false s authors ctx .empty).1.1.toOption

/-- The properties depend on nothing else than they read. -/
theorem readsOnlyDeps_author : author.ReadsOnlyDeps := by
  have hproperties : author.fieldList.map (·.property) = [none, none, none, some counted, some summed] := rfl
  intro f hf p hp row row' hsame
  have hmem : some p ∈ author.fieldList.map (·.property) := hp ▸ List.mem_map_of_mem hf
  rw [hproperties] at hmem
  obtain rfl | rfl : p = counted ∨ p = summed := by simpa using hmem
  · have harticles := hsame "articles" (by decide)
    simp only [counted, Record.getD_eq, harticles]
  · have hcounted := hsame "counted" (by decide)
    have hwords := hsame "words" (by decide)
    simp only [summed, Record.getD_eq, hcounted, hwords]

/-- Every field of the author is settled where the dependencies of both properties are needed. -/
theorem settles_author {ctx : Context} (hneeds : ∀ name ∈ ["articles", "words", "counted"], needs author ctx name) :
    ∀ f ∈ author.fieldList, author.Settles ctx f := by
  have hfields : author.fieldList.map (fun f => (f.name, f.property)) =
    [("id", none), ("articles", none), ("words", none), ("counted", some counted), ("summary", some summed)] := rfl
  have hfound : ∀ name ∈ ["articles", "words", "counted"], ∃ d ∈ author.fieldList, d.name = name := by decide +kernel
  have hnested : ∀ f ∈ author.fieldList, f.nested = none := by decide +kernel
  have hmade : ∀ f ∈ author.fieldList, f.name ∈ ["counted", "summary"] ↔ f.isComputed := by decide +kernel
  have hordered : ∀ d ∈ author.fieldList, ∀ f ∈ author.fieldList, f.name = "summary" → d.name = "counted" →
    author.Precedes d f := by decide +kernel
  have hplain : ∀ f ∈ author.fieldList, f.name ∉ ["counted", "summary"] → author.Settles ctx f := fun f hf hname =>
    .plain hf (Bool.eq_false_iff.mpr fun hyes => hname ((hmade f hf).mpr hyes)) (hnested f hf)
  have hcounted : ∀ f ∈ author.fieldList, f.name = "counted" → f.property = some counted → author.Settles ctx f := by
    intro f hf hname hp
    have harticles : ∀ name ∈ counted.deps, name = "articles" := fun name hdep => List.mem_singleton.mp hdep
    have hdirect : ∀ d ∈ author.fieldList, d.name ∈ counted.deps → d.name ∉ ["counted", "summary"] := by
      intro d _ hdep
      rw [harticles _ hdep]
      decide
    refine .computed hf ((hmade f hf).mp (by rw [hname]; decide)) hp (fun name hdep => ?_) (fun name hdep => ?_)
      (fun d hd hdep hdmade => absurd ((hmade d hd).mpr hdmade) (hdirect d hd hdep))
      fun d hd hdep => hplain d hd (hdirect d hd hdep)
    · exact harticles name hdep ▸ hfound "articles" (by decide)
    · exact harticles name hdep ▸ hneeds "articles" (by decide)
  have hsummary : ∀ f ∈ author.fieldList, f.name = "summary" → f.property = some summed → author.Settles ctx f := by
    intro f hf hname hp
    have hdeps : ∀ name ∈ summed.deps, name = "counted" ∨ name = "words" := by decide
    refine .computed hf ((hmade f hf).mp (by rw [hname]; decide)) hp (fun name hdep => ?_) (fun name hdep => ?_)
      (fun d hd hdep hdmade => ?_) fun d hd hdep => ?_
    · rcases hdeps name hdep with rfl | rfl <;> exact hfound _ (by decide)
    · rcases hdeps name hdep with rfl | rfl <;> exact hneeds _ (by decide)
    · rcases hdeps _ hdep with hd' | hd'
      · exact hordered d hd f hf hname hd'
      · exact absurd ((hmade d hd).mpr hdmade) (by rw [hd']; decide)
    · rcases hdeps _ hdep with hd' | hd'
      · refine hcounted d hd hd' ?_
        have hmem : (d.name, d.property) ∈ author.fieldList.map fun f => (f.name, f.property) := List.mem_map_of_mem hd
        rw [hfields, hd'] at hmem
        simpa using hmem
      · exact hplain d hd (by rw [hd']; decide)
  intro f hf
  have hmem : (f.name, f.property) ∈ author.fieldList.map fun f => (f.name, f.property) := List.mem_map_of_mem hf
  by_cases hname : f.name ∈ ["counted", "summary"]
  · rw [hfields] at hmem
    rcases List.mem_cons.mp hname with hname | hname
    · exact hcounted f hf hname (by simpa [hname] using hmem)
    · have hname := List.mem_singleton.mp hname
      exact hsummary f hf hname (by simpa [hname] using hmem)
  · exact hplain f hf hname

/-- A summary that comes before the number of articles is made without it; one that is asked for alone is made of a
number for which the articles are not read. -/
theorem summary_misses_count : hasty.Declared office.registry ∧ author.Declared office.registry ∧
    shown hasty {} = some [
      [("id", .int 1), ("words", .int 800), ("summary", .list [.null, .int 800]), ("counted", .int 2)],
      [("id", .int 2), ("words", .null), ("summary", .list [.null, .null]), ("counted", .int 0)]] ∧
    shown author (only ["summary"]) = some [
      [("id", .int 1), ("summary", .list [.int 0, .int 800])], [("id", .int 2), ("summary", .list [.int 0, .null])]] ∧
    shown author {} = some [
      [("id", .int 1), ("words", .int 800), ("counted", .int 2), ("summary", .list [.int 2, .int 800])],
      [("id", .int 2), ("words", .null), ("counted", .int 0), ("summary", .list [.int 0, .null])]] := by
  have hhasty : Schema.build (built writers) {} "Author" (modelOf (built writers) "author")
    (fieldsWith [summaryField, countedField]) = .ok hasty := rfl
  have hauthor : Schema.build (built writers) {} "Author" (modelOf (built writers) "author")
    (fieldsWith [countedField, summaryField]) = .ok author := rfl
  exact ⟨.built (by decide) hhasty, .built (by decide) hauthor, by decide +kernel, by decide +kernel, by decide +kernel⟩

/-- The authors with their summaries, read without the articles and the words that these are made of. -/
def summaries : List Record :=
  [[("id", .int 1), ("counted", .int 2), ("summary", .list [.int 2, .int 800])],
    [("id", .int 2), ("counted", .int 0), ("summary", .list [.int 0, .null])]]

/-- The authors with all that is read of them. -/
def full : List Record :=
  [[("id", .int 1), ("words", .int 800), ("counted", .int 2), ("summary", .list [.int 2, .int 800])],
    [("id", .int 2), ("words", .null), ("counted", .int 0), ("summary", .list [.int 0, .null])]]

/-- The summaries are made of the numbers and words that are read without scopes. -/
theorem readRows_computed_summaries :
    (Registry.build writers = .ok office.registry ∧ (∀ m ∈ office.registry.models, '.' ∉ m.pkName.toList) ∧
      author.Declared office.registry ∧ office.Still ∧ author.ReadsOnlyDeps ∧
      (∀ key ∈ author.fieldList, key.name = author.pkName → key.nested = none) ∧
      (only ["counted", "summary"]).unscoped = Context.unscoped {} ∧
      (∀ f ∈ author.fieldList, author.Settles (only ["counted", "summary"]) f ∧ author.Settles {} f) ∧
      (office.readRows {} false author authors (only ["counted", "summary"]) .empty).1.1 = .ok summaries ∧
      (office.readRows {} true author authors {} .empty).1.1 = .ok full) ∧
    List.Forall₂ (fun row row' : Record => row.lookup "summary" = some (summed.compute row')) summaries full := by
  have hbuild : Schema.build (built writers) {} "Author" (modelOf (built writers) "author")
    (fieldsWith [countedField, summaryField]) = .ok author := rfl
  have hreg : Registry.build writers = .ok office.registry := rfl
  have hdots : ∀ m ∈ office.registry.models, '.' ∉ m.pkName.toList := by decide
  have hs : author.Declared office.registry := .built (by decide) hbuild
  have hflat : ∀ key ∈ author.fieldList, key.name = author.pkName → key.nested = none := by decide +kernel
  have hsettles : ∀ f ∈ author.fieldList, author.Settles (only ["counted", "summary"]) f ∧ author.Settles {} f :=
    fun f hf => ⟨settles_author (by decide +kernel) f hf, settles_author (by decide +kernel) f hf⟩
  have hread : (office.readRows {} false author authors (only ["counted", "summary"]) .empty).1.1 = .ok summaries :=
    Outcome.toOption_eq_some.mp (by decide +kernel)
  have hfull : (office.readRows {} true author authors {} .empty).1.1 = .ok full :=
    Outcome.toOption_eq_some.mp (by decide +kernel)
  obtain ⟨_, -, -, hothers⟩ := readRows_computed hreg hdots hs rfl readsOnlyDeps_author hflat
    (fun _ he => absurd he List.not_mem_nil) hread
  have hcomputed := (hothers {} true .empty full rfl hfull).2
  have hsummary : ("summary", some summed) ∈ (requested author (only ["counted", "summary"])).map
    (fun f => (f.name, f.property)) := .tail _ (.tail _ (.head _))
  obtain ⟨f, hf, hfield⟩ := List.mem_map.mp hsummary
  have hname : f.name = "summary" := congrArg Prod.fst hfield
  have hproperty : f.property = some summed := congrArg Prod.snd hfield
  have hmem := (List.mem_filter.mp hf).1
  have hdeps : ∀ d ∈ author.fieldList, d.name ∈ summed.deps → d ∈ requested author {} := by
    have hreadable : ∀ d ∈ author.fieldList, d.name ∈ summed.deps → d.mode.read := by decide +kernel
    intro d hd hdep
    refine List.mem_filter.mpr ⟨hd, ?_⟩
    rw [hreadable d hd hdep, Bool.or_true, Bool.true_and]
    exact inScope_unscoped {} d.name d.isPrimaryKey
  have hmade : ∀ f ∈ author.fieldList, f.name = "summary" → f.isComputed := by decide +kernel
  refine ⟨⟨hreg, hdots, hs, rfl, readsOnlyDeps_author, hflat, rfl, hsettles, hread, hfull⟩,
    hcomputed.imp fun row row' hrow => ?_⟩
  rw [← hname]
  exact hrow f hf (hmade f hmem hname) (hsettles f hmem).1 summed hproperty
    fun d hd hdep => ⟨hdeps d hd hdep, (hsettles d hd).2⟩

end Summaries

end World

end RecordMapper
