import RecordMapper.Proofs.Read.Needed
import RecordMapper.Proofs.Read.Whole

/-!
# Forced expressions — what a context asks for beside the fields

A context can force expressions to be read under names of its own. They
share the row with the fields, and their columns come last. So a forced
expression stands in every row under its name, and the row keeps its key,
if no field of that name is in the way (`readRows_forced`): the value of a
field that is asked for is taken out of the row first, which leaves null
for the forced expression, and a field that a property depends on is put
over it unless it is fetched with the row.
-/

namespace RecordMapper

/-- No field is in the way of an expression that is forced under a name: none of that name is asked for, and one that
is needed is fetched with the row. -/
def Schema.LeavesName (s : Schema) (ctx : Context) (name : String) : Prop :=
  name ∉ (ReadPlan.requested s ctx).map (·.name) ∧
    (ReadPlan.needs s ctx name → ∀ f ∈ s.fieldList, f.name = name → f.isFetched)

namespace ReadPlan

variable {reg : Registry} {s : Schema} {ctx : Context} {m : Model} {sliced : Bool} {now : Instant} {plan : ReadPlan}
  {name : String} {row : Record}

/-! ## Columns -/

/-- The column of a forced expression is the last one under its name. -/
theorem exists_last_forces {forced : List (String × Expression)} {columns : List SelectColumn}
    (hnodup : (forced.map Prod.fst).Nodup) (h : List.Forall₂ (Forces reg m sliced) forced columns)
    {e : String × Expression} (he : e ∈ forced) :
    ∃ before c after, columns = before ++ c :: after ∧ Forces reg m sliced e c ∧ ∀ c' ∈ after, c'.label ≠ c.label := by
  induction h with
  | nil => cases he
  | @cons first c rest columns hfirst hrest ih =>
      rw [List.map_cons, List.nodup_cons] at hnodup
      rcases List.mem_cons.mp he with rfl | he
      · refine ⟨[], c, columns, rfl, hfirst, fun c' hc' hsame => hnodup.1 ?_⟩
        rw [← labels_of_forces hrest, ← hfirst.1, ← hsame]
        exact List.mem_map_of_mem hc'
      · obtain ⟨before, c', after, rfl, hforces, hlast⟩ := ih hnodup.2 he
        exact ⟨c :: before, c', after, rfl, hforces, hlast⟩

/-- The first record of a row has the first value of a forced expression under its name, whatever else is fetched
under that name. -/
theorem lookup_firstRecord_forced (hnodup : (ctx.forced.map Prod.fst).Nodup) (h : make reg s ctx sliced now = .ok plan)
    {e : String × Expression} (he : e ∈ ctx.forced) : ∃ c ∈ plan.columns, prepare reg s.model sliced e.2 = .ok c.expr ∧
      ∀ st qs pk, (Queryset.firstRecord reg st qs plan.columns pk).lookup e.1 =
        some (Queryset.firstCell reg st qs pk c.expr) := by
  obtain ⟨columns, more, -, hmore, rfl⟩ := make_eq_ok h
  obtain ⟨before, c, after, rfl, ⟨hlabel, hprepared⟩, hlast⟩ := exists_last_forces hnodup hmore he
  refine ⟨c, by simp, hprepared, fun st qs pk => ?_⟩
  rw [← hlabel, ← List.append_assoc]
  exact Store.lookup_firstRecord hlast

/-! ## Rows -/

/-- What is resolved, computed or put in from the start has the name of a field that is in the way. -/
theorem parts_of_leavesName (hfree : s.LeavesName ctx name) (h : make reg s ctx sliced now = .ok plan) :
    name ∉ plan.isolated.map (·.name) ∧ (∀ f ∈ plan.computed, f.name ≠ name) ∧ ∀ e ∈ plan.initial, e.1 ≠ name := by
  refine parts_of_fetched h fun f hf hname => ?_
  obtain ⟨hmem, hneeded⟩ := mem_neededFields.mp hf
  exact hfree.2 (hname ▸ hneeded) f hmem hname

/-- How often a name stands in finished rows: once for a field that is asked for, and once if it is forced. -/
theorem count_output (hnodup : (ctx.forced.map Prod.fst).Nodup) (h : make reg s ctx sliced now = .ok plan) (name : String) :
    plan.output.count name = ((requested s ctx).map (·.name)).count name +
      if name ∈ ctx.forced.map Prod.fst then 1 else 0 := by
  obtain ⟨columns, more, -, -, rfl⟩ := make_eq_ok h
  rw [List.count_append]
  refine congrArg (((requested s ctx).map (·.name)).count name + ·) ?_
  split
  · rename_i hmem
    exact List.count_eq_one_of_mem hnodup hmem
  · rename_i hmem
    exact List.count_eq_zero.mpr hmem

/-- A finished row has null under the name of a field that is asked for and of a forced expression. -/
theorem lookup_finish_twice (hnodup : (ctx.forced.map Prod.fst).Nodup) (h : make reg s ctx sliced now = .ok plan)
    (hasked : name ∈ (requested s ctx).map (·.name)) (hforced : name ∈ ctx.forced.map Prod.fst) (row : Record) :
    (plan.finish row).lookup name = some .null := by
  have hcount := count_output hnodup h name
  have hpos : 0 < ((requested s ctx).map (·.name)).count name := List.count_pos_iff.mpr hasked
  rw [if_pos hforced] at hcount
  have hmem : name ∈ plan.output := List.count_pos_iff.mp (by omega)
  rw [finish, lookup_takeOut, if_pos hmem, if_neg (by omega)]

/-- A finished row has what the row has under the name of a forced expression that no field is in the way of. -/
theorem lookup_finish_forced (hnodup : (ctx.forced.map Prod.fst).Nodup) (h : make reg s ctx sliced now = .ok plan)
    (hfree : s.LeavesName ctx name) (hforced : name ∈ ctx.forced.map Prod.fst) (row : Record) :
    (plan.finish row).lookup name = some (row.getD name) := by
  have hcount := count_output hnodup h name
  rw [if_pos hforced, List.count_eq_zero.mpr hfree.1] at hcount
  have hmem : name ∈ plan.output := List.count_pos_iff.mp (by omega)
  rw [finish, lookup_takeOut, if_pos hmem, if_pos hcount, getD_compute (parts_of_leavesName hfree h).2.1]

/-- A finished row keeps its key if nothing is forced under the name of the key. -/
theorem lookup_finish_key {key : SchemaField} (hkey : s.KeyField reg key) (hnames : (s.fieldList.map (·.name)).Nodup)
    (hmade : plan.Made s key ctx) (hforced : s.pkName ∉ ctx.forced.map Prod.fst) (row : Record) :
    (plan.finish row).lookup s.pkName = some (row.getD s.pkName) := by
  have hmem : s.pkName ∈ plan.output := by
    rw [hmade.output, ← hkey.name]
    exact List.mem_append_left _ (List.mem_map_of_mem (mem_requested hkey))
  have hgetD := getD_finish hkey hnames hmade row
  rw [if_neg hforced, Record.getD_eq, finish, lookup_takeOut, if_pos hmem] at hgetD
  rw [finish, lookup_takeOut, if_pos hmem]
  exact congrArg some hgetD

end ReadPlan

namespace World

open ReadPlan

variable {decls : List ModelDecl} {w : World} {cat : Catalog} {together : Bool} {s : Schema} {src : Source}
  {ctx : Context} {g : Guard} {rows : List Record}

/-- Every row that is returned is finished by a plan that was made. -/
theorem exists_finish (h : (w.readRows cat together s src ctx g).1.1 = .ok rows) :
    rows = [] ∨ ∃ sliced now plan, ∃ wholes : List Record, make w.registry s ctx sliced now = .ok plan ∧ rows = wholes.map plan.finish := by
  obtain ⟨prepared, hprepared, hrows⟩ := readRows_eq_ok h
  rcases hrows with ⟨-, rfl⟩ | ⟨plan, before, read, m, rfl, hresolved⟩
  · exact .inl rfl
  · obtain ⟨request, now, _, -, hmake, -⟩ := Application.exists_of_prepare hprepared
    obtain ⟨wholes, rfl, -⟩ := Journaling.sameOutside_resolveRows hresolved
    exact .inr ⟨request.rows.isSliced, now, plan, wholes, hmake, rfl⟩

/-- What a read returns under the names of forced expressions, and which rows it returns. A forced expression of the
name of a field that is asked for is null in every row, like the field. If the key is a column and nothing is forced
under its name, the rows are those of the selected keys, each with its key; and every forced expression that no field
is in the way of stands in each row under its name, with its first value there. -/
theorem readRows_forced (hreg : Registry.build decls = .ok w.registry)
    (hdots : ∀ m ∈ w.registry.models, '.' ∉ m.pkName.toList) (hs : s.Declared w.registry)
    (hnodup : (ctx.forced.map Prod.fst).Nodup) (h : (w.readRows cat together s src ctx g).1.1 = .ok rows) :
    (∀ f ∈ requested s ctx, f.name ∈ ctx.forced.map Prod.fst → ∀ row ∈ rows, row.lookup f.name = some .null) ∧
    (s.pkName ∉ ctx.forced.map Prod.fst → (∀ key ∈ s.fieldList, key.name = s.pkName → key.isIsolated = false) →
      src.Keyed w.registry s ctx →
      s.request? w.registry src ctx.single = .ok none ∧ rows = [] ∨
      ∃ request name pks, s.request? w.registry src ctx.single = .ok (some request) ∧
        (w.application cat).databaseOf ctx request.rows = .ok name ∧
        Store.select w.registry (w.database name).store request.rows = .ok pks ∧
        rows.map (·.lookup s.pkName) = (request.picked pks).map some ∧
        ∀ e ∈ ctx.forced, s.LeavesName ctx e.1 →
          ∃ x, prepare w.registry s.model request.rows.isSliced e.2 = .ok x ∧ ∀ row ∈ rows, ∃ v more,
            request.rows.cells w.registry (w.database name).store (row.getD s.pkName) x = .ok (v :: more) ∧
              row.lookup e.1 = some v) := by
  refine ⟨fun f hf hforced row hrow => ?_, fun hforced hdirect hsrc => ?_⟩
  · rcases exists_finish h with rfl | ⟨sliced, now, plan, wholes, hmake, rfl⟩
    · cases hrow
    · obtain ⟨whole, -, rfl⟩ := List.mem_map.mp hrow
      exact lookup_finish_twice hnodup hmake (List.mem_map_of_mem hf) hforced whole
  · obtain ⟨key, hkey⟩ := hs.exists_keyField (Registry.keysFound_of_build hreg hdots)
    refine (readRows_wholes hreg hs hkey (hdirect key hkey.mem hkey.name) hforced hsrc h).imp_right ?_
    rintro ⟨request, plan, name, pks, wholes, hreads, rfl⟩
    obtain ⟨now, hmake⟩ := hreads.planned
    have hfinish := lookup_finish_key hkey hs.nodup_names (made_of_make hkey hmake) hforced
    refine ⟨request, name, pks, hreads.asked, hreads.meant, hreads.selected, ?_, fun e he hfree => ?_⟩
    · rw [← hreads.map_key, List.map_map, List.map_map]
      exact List.map_congr_left fun whole _ => hfinish whole
    · have hmem : e.1 ∈ ctx.forced.map Prod.fst := List.mem_map_of_mem he
      obtain ⟨hisolated, -, hinitial⟩ := parts_of_leavesName hfree hmake
      obtain ⟨c, hc, hprepared, hfirst⟩ := lookup_firstRecord_forced hnodup hmake he
      refine ⟨c.expr, hprepared, fun row hrow => ?_⟩
      obtain ⟨whole, hwhole, rfl⟩ := List.mem_map.mp hrow
      obtain ⟨hpk, hsame⟩ := hreads.lookup_whole hwhole
      obtain ⟨more, hcells⟩ := hreads.valued _ hpk c hc
      have hkept : (plan.finish whole).getD s.pkName = whole.getD s.pkName := by
        rw [Record.getD_eq, hfinish, Option.getD_some]
      refine ⟨_, more, by rw [hkept]; exact hcells, ?_⟩
      rw [lookup_finish_forced hnodup hmake hfree hmem, Record.getD_eq, hsame _ hisolated, prefill,
        Record.lookup_extend_of_not_mem _ hinitial, hfirst, Option.getD_some]

/-! ## Labels beside a report -/

namespace Labels

open Reports (office author reportOnly)

/-- All authors. -/
def authors : Source := .queryset (.all author.model)

/-- Asks for the report alone, and for two expressions: one of the name of a field that the report is made of. -/
def labelled : Context :=
  { reportOnly with forced := [("words", .literal (.int 5)), ("number", .column "id")] }

/-- The authors as they are read with these labels. -/
def labelledRows : List Record :=
  [[("id", .int 1), ("report", .list [.list [.int 1, .int 2], .int 5]), ("words", .int 5), ("number", .int 1)],
    [("id", .int 2), ("report", .list [.list [], .int 5]), ("words", .int 5), ("number", .int 2)]]

/-- The names of the labels are free, so each row holds them beside its key and its report. -/
theorem readRows_forced_labelled :
    (Registry.build Registry.writers = .ok office.registry ∧
      (∀ m ∈ office.registry.models, '.' ∉ m.pkName.toList) ∧ author.Declared office.registry ∧
      (labelled.forced.map Prod.fst).Nodup ∧ author.pkName ∉ labelled.forced.map Prod.fst ∧
      (∀ key ∈ author.fieldList, key.name = author.pkName → key.isIsolated = false) ∧
      authors.Keyed office.registry author labelled ∧ (∀ e ∈ labelled.forced, author.LeavesName labelled e.1) ∧
      (office.readRows {} false author authors labelled .empty).1.1 = .ok labelledRows) ∧
    ∃ request name pks, author.request? office.registry authors labelled.single = .ok (some request) ∧
      (office.application {}).databaseOf labelled request.rows = .ok name ∧
      Store.select office.registry (office.database name).store request.rows = .ok pks ∧
      labelledRows.map (·.lookup author.pkName) = (request.picked pks).map some ∧
      ∀ e ∈ labelled.forced, ∃ x, prepare office.registry author.model request.rows.isSliced e.2 = .ok x ∧
        ∀ row ∈ labelledRows, ∃ v more,
          request.rows.cells office.registry (office.database name).store (row.getD author.pkName) x = .ok (v :: more) ∧
            row.lookup e.1 = some v := by
  have hbuild : Schema.build (Registry.built Registry.writers) {} "Author"
    (Registry.modelOf (Registry.built Registry.writers) "author") Reports.reportFields = .ok author := rfl
  have hreg : Registry.build Registry.writers = .ok office.registry := rfl
  have hdots : ∀ m ∈ office.registry.models, '.' ∉ m.pkName.toList := by decide
  have hs : author.Declared office.registry := .built (by decide) hbuild
  have hkeyed : authors.Keyed office.registry author labelled := by
    intro request h
    obtain rfl : _ = request := Option.some.inj (Except.ok.inj h)
    exact ⟨by decide, ⟨_, rfl, rfl, rfl, rfl⟩, nofun, nofun⟩
  have hfree : ∀ e ∈ labelled.forced, author.LeavesName labelled e.1 := by
    have hnames : ∀ e ∈ labelled.forced, e.1 ∉ (requested author labelled).map (·.name) ∧
        ∀ f ∈ author.fieldList, f.name = e.1 → f.isFetched := by decide +kernel
    exact fun e he => ⟨(hnames e he).1, fun _ => (hnames e he).2⟩
  have hdirect : ∀ key ∈ author.fieldList, key.name = author.pkName → key.isIsolated = false := by decide +kernel
  have hread : (office.readRows {} false author authors labelled .empty).1.1 = .ok labelledRows :=
    Outcome.toOption_eq_some.mp (by decide +kernel)
  have hforced := (readRows_forced hreg hdots hs (by decide) hread).2 (by decide) hdirect hkeyed
  obtain ⟨-, hnone⟩ | ⟨request, name, pks, hasked, hmeant, hselected, hkeys, hvalues⟩ := hforced
  · cases hnone
  · exact ⟨⟨hreg, hdots, hs, by decide, by decide, hdirect, hkeyed, hfree, hread⟩, request, name, pks, hasked, hmeant,
      hselected, hkeys, fun e he => hvalues e he (hfree e he)⟩

/-- What all authors are read as under some names, with one expression forced. -/
def shown (name : String) (e : Expression) (names : List String) : Option (List (List (Option Value))) :=
  (office.readRows {} false author authors { forced := [(name, e)] } .empty).1.1.toOption.map fun rows =>
    rows.map fun row => names.map fun name => row.lookup name

/-- A number that is forced under the name of a field that is shown is null; under the name of the key it takes the keys
from the rows, of which one is left; and under the name of a hidden field that the report needs stands that field. -/
theorem number_not_shown : author.Declared office.registry ∧
    shown "words" (.literal (.int 7)) ["id", "words"] = some [[some (.int 1), some .null], [some (.int 2), some .null]] ∧
    shown "id" (.literal (.int 7)) ["id"] = some [[some .null]] ∧
    shown "articles" (.literal (.int 7)) ["id", "articles"] =
      some [[some (.int 1), some (.list [.int 1, .int 2])], [some (.int 2), some (.list [])]] := by
  have hbuild : Schema.build (Registry.built Registry.writers) {} "Author"
    (Registry.modelOf (Registry.built Registry.writers) "author") Reports.reportFields = .ok author := rfl
  exact ⟨.built (by decide) hbuild, by decide +kernel⟩

end Labels

end World

end RecordMapper
