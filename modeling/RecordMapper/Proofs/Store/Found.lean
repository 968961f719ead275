import RecordMapper.Proofs.Read.Filtered
import RecordMapper.Proofs.Read.Scoped
import RecordMapper.Proofs.Registry.Typed
import RecordMapper.Proofs.Store.Tracked

/-!
# Found — expressions whose columns resolve

Where all columns of an expression resolve, its value on a row may fail
for many reasons, but not for a field that is not found
(`eval_findsFields`). An aggregate follows the start of its path and the
end of it one after the other, and a filter the paths behind that start:
both parts of a path that resolves are found (`resolves_start`,
`tracks_rest`). What a subquery asks for inside is not among the columns,
so it is assumed to find its fields (`SubqueryFinds`).
-/

namespace RecordMapper

variable {reg : Registry} {st : Store} {m target : Model} {named : Named} {path whole : String}
  {names before behind rest : List String} {p : ResolvedPath} {pk : Value} {filter : Option Condition}

theorem Outcome.FindsFields.map {α β : Type} {r : Outcome α} {f : α → β} (h : r.FindsFields) :
    Outcome.FindsFields (r.map f) := by
  cases r with
  | ok a => exact trivial
  | error e => exact h

/-! ## Paths in two parts -/

theorem dottedNames_append (path inner : String) :
    dottedNames (path ++ "." ++ inner) = dottedNames path ++ dottedNames inner := by
  have hlist : (path ++ "." ++ inner).toList = path.toList ++ '.' :: inner.toList := by
    rw [String.toList_append, String.toList_append, List.append_assoc]
    rfl
  have hsplit : (path.toList ++ '.' :: inner.toList).splitOn '.' =
      path.toList.splitOn '.' ++ inner.toList.splitOn '.' :=
    List.splitOnP_append_cons _ _ (beq_self_eq_true '.')
  rw [dottedNames, hlist, hsplit, List.map_append]
  rfl

theorem dottedNames_ne_nil (path : String) : dottedNames path ≠ [] := fun h =>
  List.splitOn_ne_nil '.' path.toList (List.map_eq_nil_iff.mp h)

namespace Registry

theorem related_findsFields (reg : Registry) (m : Model) (f : Field) : (reg.related m f).FindsFields := by
  rw [related]
  split
  · exact model_findsFields reg _
  · rintro ⟨⟩

theorem targetModel_findsFields (reg : Registry) (p : ResolvedPath) : (reg.targetModel p).FindsFields := by
  rw [targetModel]
  split
  · exact (related_findsFields reg _ _).map
  · exact trivial

/-- Names that are found one after another are found up to each relation among them, and from the model that it leads
to. -/
theorem resolveNames_append {start start' : String} (hnames : names ≠ []) (hrest : rest ≠ [])
    (h : reg.resolveNames start whole m (names ++ rest) = .ok p) :
    ∃ q target p', reg.resolveNames start' path m names = .ok q ∧ reg.targetModel q = .ok (some target) ∧
      reg.resolveNames start whole target rest = .ok p' := by
  induction names generalizing m p with
  | nil => exact absurd rfl hnames
  | cons name names ih =>
      have hne : names ++ rest ≠ [] := List.append_ne_nil_of_right_ne_nil names hrest
      rw [List.cons_append, resolveNames] at h
      obtain ⟨f, hf, h⟩ := Outcome.bind_eq_ok.mp h
      split at h
      · rename_i hrel
        obtain ⟨next, hnext, h⟩ := Outcome.bind_eq_ok.mp h
        obtain ⟨tail, htail, -⟩ := Outcome.bind_eq_ok.mp h
        cases names with
        | nil =>
            refine ⟨⟨[], ⟨m, f⟩⟩, next, tail, ?_, ?_, htail⟩
            · rw [resolveNames, hf]
              rfl
            · rw [targetModel, if_pos hrel, hnext]
              rfl
        | cons name' names =>
            obtain ⟨q, target, p', hq, htarget, hp'⟩ := ih (List.cons_ne_nil _ _) htail
            refine ⟨{ q with before := ⟨m, f⟩ :: q.before }, target, p', ?_, htarget, hp'⟩
            rw [resolveNames, hf, Outcome.ok_bind, if_pos hrel, hnext, Outcome.ok_bind, hq]
            · rfl
            · exact List.cons_ne_nil _ _
      · cases h
      · exact hne

/-- The start of a path that resolves is a path to rows, and from these the rest is a track. -/
private theorem exists_cut (h : reg.Resolves m whole) (hnames : dottedNames whole = before ++ rest)
    (hbefore : before ≠ []) (hrest : rest ≠ []) : ∃ q target steps,
      reg.resolvePath m (".".intercalate before) = .ok q ∧ reg.targetModel q = .ok (some target) ∧
        Tracks reg target rest steps := by
  obtain ⟨p, hp⟩ := h
  rw [resolvePath, hnames] at hp
  split at hp
  · cases hp
  · rename_i hempty
    obtain ⟨q, target, p', hq, htarget, hp'⟩ := resolveNames_append hbefore hrest hp
    refine ⟨q, target, p'.steps, ?_, htarget, tracks_of_resolveNames hp'⟩
    have hdots : ∀ n ∈ before, '.' ∉ n.toList := by
      intro n hn
      have hmem : n ∈ dottedNames whole := hnames ▸ List.mem_append_left rest hn
      exact not_mem_of_mem_dottedNames hmem
    rw [resolvePath, dottedNames_intercalate hbefore hdots, if_neg, hq]
    rw [List.any_append, Bool.or_eq_true, not_or] at hempty
    exact hempty.1

/-- The start of a path that resolves does. -/
theorem resolves_start (h : reg.Resolves m whole) (hnames : dottedNames whole = before ++ rest) (hbefore : before ≠ []) :
    reg.Resolves m (".".intercalate before) := by
  by_cases hrest : rest = []
  · rw [hrest, List.append_nil] at hnames
    rwa [← hnames, intercalate_dottedNames]
  · obtain ⟨q, -, -, hq, -⟩ := exists_cut h hnames hbefore hrest
    exact ⟨q, hq⟩

/-- The rest of a path that resolves is a track from where its start leads. -/
theorem tracks_rest (h : reg.Resolves m whole) (hnames : dottedNames whole = before ++ rest) (hbefore : before ≠ [])
    (hstart : reg.resolvePath m (".".intercalate before) = .ok p) (htarget : reg.targetModel p = .ok (some target))
    (hrest : rest ≠ []) : ∃ steps, Tracks reg target rest steps := by
  obtain ⟨q, target', steps, hq, htarget', htracks⟩ := exists_cut h hnames hbefore hrest
  obtain rfl := Except.ok.inj (hstart.symm.trans hq)
  obtain rfl := Option.some.inj (Except.ok.inj (htarget.symm.trans htarget'))
  exact ⟨steps, htracks⟩

end Registry

/-! ## Functions of values -/

namespace Scalar

theorem call_findsFields (name : String) (args : List Value) : (call name args).FindsFields := by
  unfold call
  extract_lets first
  generalize upperText name = word
  split
  case h_6 => cases first <;> first | exact trivial | rintro ⟨⟩
  all_goals first | exact trivial | rintro ⟨⟩

theorem arith_findsFields (op : Arithmetic) (l r : Value) : (arith op l r).FindsFields := by
  unfold arith
  split
  · exact trivial
  · split
    · exact trivial
    · split
      · cases op
        case div =>
          rw [onFloats]
          split <;> first | exact trivial | rintro ⟨⟩
        all_goals exact trivial
      · rintro ⟨⟩

theorem sumInts_findsFields (values : List Value) (start : Int64) : (sumInts start values).FindsFields := by
  induction values generalizing start with
  | nil => exact trivial
  | cons v rest ih =>
      rw [sumInts]
      split
      · exact ih _
      · rintro ⟨⟩

theorem sumFloats_findsFields (values : List Value) (start : Binary64) : (sumFloats start values).FindsFields := by
  induction values generalizing start with
  | nil => exact trivial
  | cons v rest ih =>
      rw [sumFloats]
      split
      · exact ih _
      · rintro ⟨⟩

theorem sum_findsFields (values : List Value) : (sum values).FindsFields := by
  unfold sum
  split
  · exact (sumInts_findsFields values 0).map
  · exact (sumFloats_findsFields values .zero).map

theorem combine_findsFields (func : Aggregate) (given : List Value) : (combine func given).FindsFields := by
  unfold combine
  split
  · exact trivial
  · cases func
    case sum => exact sum_findsFields given
    case avg => exact (sum_findsFields given).bind fun _ _ => trivial
    all_goals exact trivial

theorem aggregate_findsFields (func : Aggregate) (values : List Value) (distinct : Bool) :
    (aggregate func values distinct).FindsFields :=
  combine_findsFields func _

end Scalar

/-! ## What an aggregate collects -/

namespace Store

open Registry

/-- A model whose paths can be followed, with names whose meanings find their fields. -/
structure Readable (reg : Registry) (m : Model) (named : Named) : Prop where
  paired : Paired reg
  told : Told reg
  model : m ∈ reg.models
  named : ∀ name value, named name = some value → ∀ pk, (value pk).FindsFields

namespace Readable

theorem pathValues (hr : Readable reg m named) (ht : target ∈ reg.models) {steps : List PathStep}
    (h : Tracks reg target (dottedNames path) steps) (pk : Value) : (pathValues reg st target pk path).FindsFields :=
  follow_findsFields hr.paired hr.told ht _ _ h _

theorem columnValues (hr : Readable reg m named) (h : reg.Resolves m path) (pk : Value) :
    (columnValues reg st m named pk path).FindsFields := by
  obtain ⟨p, hpath⟩ := h
  exact columnValues_findsFields hr.paired hr.told hr.model (hr.named path) (tracks_of_resolvePath hpath) pk

theorem columnValue (hr : Readable reg m named) (h : reg.Resolves m path) (pk : Value) :
    (columnValue reg st m named pk path).FindsFields :=
  (hr.columnValues h pk).bind fun _ _ => trivial

theorem holds (hr : Readable reg m named) {q : Condition} (h : ∀ p ∈ q.paths, reg.Resolves m p) (pk : Value) :
    (q.holds (Store.columnValues reg st m named pk)).FindsFields :=
  Condition.holds_meets fun p hpath => hr.columnValues (h p hpath) pk

/-- Behind the row that an aggregate has come to, the paths of its filter go on from there. -/
theorem relatedPasses (hr : Readable reg m named) {q : ResolvedPath} (hbefore : before ≠ [])
    (hdots : ∀ n ∈ before, '.' ∉ n.toList) (hq : reg.resolvePath m (".".intercalate before) = .ok q)
    (htarget : reg.targetModel q = .ok (some target))
    (hfilter : ∀ p ∈ Expression.filterPaths filter, reg.Resolves m p) (related : Value) :
    (relatedPasses reg st m named pk (".".intercalate before) target related filter).FindsFields := by
  cases filter with
  | none => exact trivial
  | some condition =>
      refine Condition.holds_meets fun p hpath => ?_
      split
      · exact trivial
      · split
        · rename_i inner hbelow
          have hnames : dottedNames p = before ++ dottedNames inner := by
            rw [eq_of_below? hbelow, dottedNames_append, dottedNames_intercalate hbefore hdots]
          obtain ⟨steps, htracks⟩ :=
            tracks_rest (hfilter p hpath) hnames hbefore hq htarget (dottedNames_ne_nil inner)
          exact hr.pathValues (mem_of_related (related_of_targetModel htarget)) htracks related
        · exact hr.columnValues (hfilter p hpath) pk

theorem readBehind (hr : Readable reg m named) (ht : target ∈ reg.models)
    (h : behind ≠ [] → ∃ steps, Tracks reg target behind steps) (hdots : ∀ n ∈ behind, '.' ∉ n.toList)
    (related : Value) : (readBehind reg st target behind related).FindsFields := by
  cases behind with
  | nil => exact trivial
  | cons name names =>
      obtain ⟨steps, hsteps⟩ := h (List.cons_ne_nil name names)
      rw [← dottedNames_intercalate (List.cons_ne_nil name names) hdots] at hsteps
      exact hr.pathValues ht hsteps related

/-- An aggregate finds what is behind the cut of its path. -/
theorem valuesBehind (hr : Readable reg m named) (h : reg.Resolves m path)
    (hnames : dottedNames path = before ++ behind) (hbefore : before ≠ [])
    (hfilter : ∀ p ∈ Expression.filterPaths filter, reg.Resolves m p) :
    (valuesBehind reg st m named pk before behind filter).FindsFields := by
  have hdots : ∀ n ∈ before ++ behind, '.' ∉ n.toList := fun n hn => not_mem_of_mem_dottedNames (hnames ▸ hn)
  have hfront : ∀ n ∈ before, '.' ∉ n.toList := fun n hn => hdots n (List.mem_append_left behind hn)
  obtain ⟨q, hq⟩ := resolves_start h hnames hbefore
  rw [Store.valuesBehind]
  simp only [hq, Outcome.ok_bind]
  refine (targetModel_findsFields reg q).self.bind fun target htarget => ?_
  cases target with
  | none => rintro ⟨⟩
  | some target =>
      have ht : target ∈ reg.models := mem_of_related (related_of_targetModel htarget)
      have hstart : (Store.pathValues reg st m pk (".".intercalate before)).FindsFields :=
        hr.pathValues hr.model (tracks_of_resolvePath hq) pk
      have hbehind : behind ≠ [] → ∃ steps, Tracks reg target behind steps :=
        tracks_rest h hnames hbefore hq htarget
      refine hstart.bind fun reached _ => (Outcome.Meets.mapM (Q := fun _ => True) fun related _ => ?_).bind
        fun _ _ => trivial
      refine (hr.relatedPasses hbefore hfront hq htarget hfilter related).bind fun b _ => ?_
      cases b
      · exact trivial
      · exact hr.readBehind ht hbehind (fun n hn => hdots n (List.mem_append_right before hn)) related

/-- What an aggregate collects is found if its columns and those of its filter resolve. -/
theorem aggregated (hr : Readable reg m named) {e : Expression} {value : RowValue}
    (hcolumns : ∀ p ∈ e.columns, reg.Resolves m p) (hfilter : ∀ p ∈ Expression.filterPaths filter, reg.Resolves m p)
    (hvalue : (value pk).FindsFields) : (aggregated reg st m named e value filter pk).FindsFields := by
  have hone : Outcome.FindsFields (do return [← value pk] : Outcome (List Value)) := hvalue.bind fun _ _ => trivial
  unfold Store.aggregated
  -- Where nothing is cut, the filter and the value are those of the row itself.
  extract_lets collect
  have hcollect : ∀ split, (∀ before behind, split = some (before, behind) →
      ∃ path, reg.Resolves m path ∧ dottedNames path = before ++ behind ∧ before ≠ []) →
      (collect split).FindsFields := by
    intro split hsplit
    cases split with
    | some cut =>
        obtain ⟨path, hpath, hnames, hbefore⟩ := hsplit _ _ rfl
        exact hr.valuesBehind hpath hnames hbefore hfilter
    | none =>
        cases filter with
        | none => exact hone
        | some q =>
            refine (hr.holds hfilter pk).bind fun b _ => ?_
            cases b
            · exact trivial
            · exact hone
  have hnone : (collect none).FindsFields := hcollect none (by rintro _ _ ⟨⟩)
  cases e with
  | column path =>
      obtain ⟨p, hpath⟩ := hcolumns path List.mem_cons_self
      simp only
      split
      · exact hnone
      · rw [hpath]
        refine hcollect _ fun before behind hcut => ?_
        obtain ⟨front, s, back, -, -, rfl, rfl⟩ := exists_of_splitAtMany hcut
        refine ⟨path, ⟨p, hpath⟩, (List.take_append_drop _ _).symm, fun hnil => ?_⟩
        rcases List.take_eq_nil_iff.mp hnil with hlength | hnil
        · exact absurd hlength (by simp)
        · exact dottedNames_ne_nil path hnil
  | _ => exact hnone

end Readable

end Store

/-! ## Expressions -/

namespace Expression

/-- A subquery finds its fields, whatever it is linked to. -/
def SubqueryFinds (reg : Registry) (st : Store) (rows : Queryset) (link : String) (value : Expression) : Prop :=
  ∀ here, Outcome.Meets (fun pks => (evalOver reg st rows.model value (annotationsOf reg st rows) pks).FindsFields)
    Failure.FieldsFound (keysOf reg st rows (some (link, here)))

mutual

/-- The subqueries of an expression find their fields. -/
def SubqueriesFind (reg : Registry) (st : Store) : Expression → Prop
  | .column _ => True
  | .literal _ => True
  | .call _ args => ArgsFind reg st args
  | .aggregate _ e _ _ => SubqueriesFind reg st e
  | .choose whens otherwise => WhensFind reg st whens ∧ OtherwiseFinds reg st otherwise
  | .subquery rows link _ value => SubqueryFinds reg st rows link value
  | .arith _ l r => SubqueriesFind reg st l ∧ SubqueriesFind reg st r

/-- Those of several expressions do. -/
def ArgsFind (reg : Registry) (st : Store) : List Expression → Prop
  | [] => True
  | e :: rest => SubqueriesFind reg st e ∧ ArgsFind reg st rest

/-- Those of several branches do. -/
def WhensFind (reg : Registry) (st : Store) : List (Condition × Expression) → Prop
  | [] => True
  | (_, e) :: rest => SubqueriesFind reg st e ∧ WhensFind reg st rest

/-- Those of the last branch do. -/
def OtherwiseFinds (reg : Registry) (st : Store) : Option Expression → Prop
  | none => True
  | some e => SubqueriesFind reg st e

end

mutual

/-- The value of an expression whose columns resolve does not fail for a field that is not found. -/
theorem eval_findsFields (hr : Store.Readable reg m named) : ∀ {e : Expression},
    (∀ p ∈ e.columns, reg.Resolves m p) → e.SubqueriesFind reg st → ∀ pk, (e.eval reg st m named pk).FindsFields
  | .column path, h, _, pk => hr.columnValue (h path List.mem_cons_self) pk
  | .literal _, _, _, _ => trivial
  | .call name args, h, hsub, pk => by
      have hargs : (evalArgs reg st m args named pk).FindsFields := evalArgs_findsFields hr h hsub pk
      rw [eval]
      exact hargs.bind fun _ _ => Scalar.call_findsFields name _
  | .aggregate func e distinct filter, h, hsub, pk => by
      rw [columns] at h
      have hcolumns : ∀ p ∈ e.columns, reg.Resolves m p := fun p hp => h p (List.mem_append_left _ hp)
      have hfilter : ∀ p ∈ filterPaths filter, reg.Resolves m p := fun p hp => h p (List.mem_append_right _ hp)
      have hvalue : (e.eval reg st m named pk).FindsFields := eval_findsFields hr hcolumns hsub pk
      rw [eval]
      exact (hr.aggregated hcolumns hfilter hvalue).bind fun _ _ =>
        Scalar.aggregate_findsFields func _ distinct
  | .choose whens otherwise, h, hsub, pk => by
      rw [columns] at h
      have hwhens : (evalWhens reg st m whens named pk).FindsFields :=
        evalWhens_findsFields hr (fun p hp => h p (List.mem_append_left _ hp)) hsub.1 pk
      have hotherwise : (evalOtherwise reg st m otherwise named pk).FindsFields :=
        evalOtherwise_findsFields hr (fun p hp => h p (List.mem_append_right _ hp)) hsub.2 pk
      rw [eval]
      refine hwhens.bind fun v _ => ?_
      cases v
      · exact hotherwise
      · exact trivial
  | .subquery rows link outer value, h, hsub, pk => by
      rw [eval]
      refine (hr.columnValue (h outer List.mem_cons_self) pk).bind fun here _ => ?_
      exact (hsub here).bind fun _ hpks => hpks
  | .arith op l r, h, hsub, pk => by
      rw [columns] at h
      have hleft : (l.eval reg st m named pk).FindsFields :=
        eval_findsFields hr (fun p hp => h p (List.mem_append_left _ hp)) hsub.1 pk
      have hright : (r.eval reg st m named pk).FindsFields :=
        eval_findsFields hr (fun p hp => h p (List.mem_append_right _ hp)) hsub.2 pk
      rw [eval]
      exact hleft.bind fun _ _ => hright.bind fun _ _ => Scalar.arith_findsFields op _ _

theorem evalArgs_findsFields (hr : Store.Readable reg m named) : ∀ {args : List Expression},
    (∀ p ∈ argColumns args, reg.Resolves m p) → ArgsFind reg st args → ∀ pk, (evalArgs reg st m args named pk).FindsFields
  | [], _, _, _ => trivial
  | e :: rest, h, hsub, pk => by
      rw [argColumns] at h
      have hfirst : (e.eval reg st m named pk).FindsFields :=
        eval_findsFields hr (fun p hp => h p (List.mem_append_left _ hp)) hsub.1 pk
      have hrest : (evalArgs reg st m rest named pk).FindsFields :=
        evalArgs_findsFields hr (fun p hp => h p (List.mem_append_right _ hp)) hsub.2 pk
      rw [evalArgs]
      exact hfirst.bind fun _ _ => hrest.bind fun _ _ => trivial

theorem evalWhens_findsFields (hr : Store.Readable reg m named) : ∀ {whens : List (Condition × Expression)},
    (∀ p ∈ whenColumns whens, reg.Resolves m p) → WhensFind reg st whens → ∀ pk, (evalWhens reg st m whens named pk).FindsFields
  | [], _, _, _ => trivial
  | (q, e) :: rest, h, hsub, pk => by
      rw [whenColumns] at h
      have hcondition : (q.holds (Store.columnValues reg st m named pk)).FindsFields :=
        hr.holds (fun p hp => h p (List.mem_append_left _ (List.mem_append_left _ hp))) pk
      have hfirst : (e.eval reg st m named pk).FindsFields :=
        eval_findsFields hr (fun p hp => h p (List.mem_append_left _ (List.mem_append_right _ hp))) hsub.1 pk
      have hrest : (evalWhens reg st m rest named pk).FindsFields :=
        evalWhens_findsFields hr (fun p hp => h p (List.mem_append_right _ hp)) hsub.2 pk
      rw [evalWhens]
      refine hcondition.bind fun b _ => ?_
      cases b
      · exact hrest
      · exact hfirst.bind fun _ _ => trivial

theorem evalOtherwise_findsFields (hr : Store.Readable reg m named) : ∀ {otherwise : Option Expression},
    (∀ p ∈ otherwiseColumns otherwise, reg.Resolves m p) → OtherwiseFinds reg st otherwise →
    ∀ pk, (evalOtherwise reg st m otherwise named pk).FindsFields
  | none, _, _, _ => trivial
  | some _, h, hsub, pk => eval_findsFields hr h hsub pk

end

end Expression

/-- The cells of an expression whose columns resolve are found. -/
theorem Store.Readable.columnCells (hr : Readable reg m named) {e : Expression}
    (hcolumns : ∀ p ∈ e.columns, reg.Resolves m p) (hsub : e.SubqueriesFind reg st) (pk : Value) :
    (columnCells reg st m named pk e).FindsFields := by
  unfold Store.columnCells
  split
  · exact (hr.columnValues (hcolumns _ List.mem_cons_self) pk).bind fun _ _ => trivial
  · exact (Expression.eval_findsFields hr hcolumns hsub pk).bind fun _ _ => trivial

end RecordMapper

/-!
## Expressions — what a schema checks of its computed columns

A schema is only built if each of its expressions has a type, and having
one settles some of the columns: of an expression in a schema those
columns may be missing that its type is not read from, and no others
(`expressions_of_build`). With these in place, its value fails on no row
for a field that is not found. Nothing looks for them when the schema is
built: it can hold a column that fails on every row (`missing_overlooked`).
-/

namespace RecordMapper

open Registry

variable {decls : List ModelDecl} {reg : Registry} {cat : Catalog} {m : Model} {d : FieldDecl} {e : Expression}
  {named : Named}

theorem SchemaField.typed_of_classify {f : SchemaField} (hsource : d.source = .expression e)
    (h : classify reg cat m d = .ok f) : ∃ t, reg.outputType m e = .ok t := by
  obtain ⟨mode, g, -, h, -⟩ := exists_ofSource h
  rw [ofSource, hsource] at h
  simp only at h
  split at h
  · cases h
  · obtain ⟨t, ht, -⟩ := Outcome.bind_eq_ok.mp h
    exact ⟨t, ht⟩

namespace Schema

variable {name : String} {fields : List FieldDecl} {s : Schema}

/-- Every declaration of a schema that is built is classified. -/
theorem classify_of_build (h : build reg cat name m fields = .ok s) (hd : d ∈ fields) :
    ∃ f, SchemaField.classify reg cat m d = .ok f := by
  obtain ⟨_, hfields, -⟩ := Outcome.bind_eq_ok.mp h
  refine Outcome.foldlM_reaches (P := fun _ => ∃ f, SchemaField.classify reg cat m d = .ok f)
    (fun _ _ _ _ hf _ => hf) hd (fun _ _ hstep => ?_) hfields
  split at hstep
  · cases hstep
  · obtain ⟨f, hf, -⟩ := Outcome.map_eq_ok.mp hstep
    exact ⟨f, hf⟩

/-- An expression has a type on a model of a registry exactly if its functions are known and each path has a type that
its own is read from. Then its columns resolve if those do that are overlooked; a schema that is built has no
expression of another kind; and one whose overlooked columns resolve fails on no row for a field that is not found. -/
theorem expressions_of_build (hb : Registry.build decls = .ok reg) (hm : m ∈ reg.models) (e : Expression) :
    ((∃ t, reg.outputType m e = .ok t) ↔ reg.Typed (e.typePaths m)) ∧
      (∀ cat name fields s, build reg cat name m fields = .ok s → ∀ d ∈ fields, d.source = .expression e →
        ∃ t, reg.outputType m e = .ok t) ∧
      ((∃ t, reg.outputType m e = .ok t) →
        ((∀ path ∈ e.columns, reg.Resolves m path) ↔ ∀ path ∈ e.overlooked, reg.Resolves m path) ∧
        (Told reg → (∀ path ∈ e.overlooked, reg.Resolves m path) → ∀ st named, e.SubqueriesFind reg st →
          (∀ name value, named name = some value → ∀ pk, (value pk).FindsFields) →
          ∀ pk, (Store.columnCells reg st m named pk e).FindsFields)) := by
  refine ⟨exists_outputType_iff, fun cat name fields s h d hd hsource => ?_, fun htype => ?_⟩
  · obtain ⟨f, hf⟩ := classify_of_build h hd
    exact SchemaField.typed_of_classify hsource hf
  · have hcolumns := resolves_columns_iff (exists_outputType_iff.mp htype)
    refine ⟨hcolumns, fun htold hoverlooked st named hsub hnamed pk => ?_⟩
    obtain ⟨settled, hbuilt⟩ := builtFrom_of_build hb
    exact Store.Readable.columnCells ⟨hbuilt.paired htold.sides, htold, hm, hnamed⟩ (hcolumns.mpr hoverlooked) hsub pk

end Schema

/-! ## The output of authors -/

namespace Outputs

open Registry (built modelOf writers writings output)
open World.Reports (office)

def author : Model := modelOf (built writers) "author"

/-- The schema of an author with one computed column. -/
def built? (e : Expression) : Outcome Schema :=
  Schema.build (built writers) {} "Author" author [{ name := "id" }, { name := "shown", source := .expression e }]

def schemaOf (e : Expression) : Schema :=
  match built? e with
  | .ok s => s
  | .error _ => default

theorem told_writers : Told (built writers) where
  relation := by decide
  key := by decide
  sides := sidesAreDeclared_of_forward (by decide)

/-- The output of an author has a type, and both of its columns resolve: the one that the type is read from, and the one
that is counted. -/
theorem output_found :
    (Registry.build writers = .ok (built writers) ∧ author ∈ (built writers).models) ∧
      built? output = .ok (schemaOf output) ∧ (∃ t, (built writers).outputType author output = .ok t) ∧
      (∀ path ∈ output.columns, (built writers).Resolves author path) ∧
      ∀ pk, (Store.columnCells (built writers) writings author (fun _ => none) pk output).FindsFields := by
  have hb : Registry.build writers = .ok (built writers) := rfl
  have hm : author ∈ (built writers).models := by decide
  have hschema : built? output = .ok (schemaOf output) := rfl
  obtain ⟨-, hbuilt, hcolumns⟩ := Schema.expressions_of_build hb hm output
  have htype : ∃ t, (built writers).outputType author output = .ok t :=
    hbuilt {} "Author" _ _ hschema _ (List.mem_cons_of_mem _ List.mem_cons_self) rfl
  obtain ⟨hresolves, hfinds⟩ := hcolumns htype
  have hoverlooked : ∀ path ∈ output.overlooked, (built writers).Resolves author path :=
    List.forall_mem_singleton.mpr ⟨_, rfl⟩
  refine ⟨⟨hb, hm⟩, hschema, htype, hresolves.mpr hoverlooked, hfinds told_writers hoverlooked writings _ ?_ nofun⟩
  exact ⟨trivial, trivial⟩

/-- A column that no author has, in small letters. -/
def small : Expression := .call "LOWER" [.column "name"]

/-- The kind and the message of the failure of a read of the first author. -/
def failure? (s : Schema) : Option (Failure.Kind × String) :=
  match (office.readRows {} false s (.keys [.int 1]) {} .empty).1.1 with
  | .ok _ => none
  | .error f => some (f.kind, f.message)

/-- A schema is refused for a column that is missing, but not for the same column in small letters: then each read of
it is. -/
theorem missing_overlooked :
    (Registry.build writers = .ok (built writers) ∧ author ∈ (built writers).models ∧
      (built writers).outputType author small = .ok .char ∧ "name" ∈ small.columns) ∧
      (built writers).resolvePath author "name" = .error (.fieldNotFound "author" "name") ∧
      built? (.column "name") = .error (.fieldNotFound "author" "name") ∧
      built? small = .ok (schemaOf small) ∧
      failure? (schemaOf small) = some (.fieldNotFound, "Field not found: author.name") :=
  ⟨⟨rfl, by decide, rfl, by decide⟩, rfl, rfl, rfl, by decide +kernel⟩

end Outputs

end RecordMapper
