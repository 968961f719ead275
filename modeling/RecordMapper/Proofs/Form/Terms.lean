import RecordMapper.Proofs.Form.Pages
import RecordMapper.Proofs.Form.Shares
import RecordMapper.Proofs.Store.Annotations

/-!
# Terms — what the keys of an order sort by

Every key that is asked for and stands for a path or an expression
(`FormOrder.StandsFor`) gives a term with the direction and the place of
null that its order declares. A path is sorted by itself. An expression
is annotated under a label that is made of its key alone, so the term has
the value of whatever is asked for last under the label
(`filtered_sorts`): that of the expression itself as long as no other key
has the label, and of another one if two orders, or two keys of one,
share it (`label_shared`).
-/

namespace RecordMapper

/-! ## What targets mean -/

namespace FormTarget

/-- The paths that a target asks for. -/
def columns : FormTarget → List String
  | .path p => [p]
  | .expression e => e.columns

/-- The value of a target on a row, without any annotation. -/
def value (reg : Registry) (st : Store) (m : Model) : FormTarget → RowValue
  | .path p => fun pk => Store.columnValue reg st m (fun _ => none) pk p
  | .expression e => e.eval reg st m fun _ => none

end FormTarget

namespace FormOrder

variable {reg : Registry} {m : Model} {o : FormOrder} {key formMark raw : String} {target : FormTarget}
  {s : Share OrderTerm}

/-- The name that a key is sorted by. -/
def sortColumn (key : String) : FormTarget → String
  | .path p => p
  | .expression _ => label key

/-- What a key adds that stands for a target. -/
def shareFor (o : FormOrder) (key : String × Bool) (target : FormTarget) : Share OrderTerm where
  annotations :=
    match target with
    | .path _ => []
    | .expression e => [(label key.1, e)]
  parts := [o.term key.1 key.2 (.column (sortColumn key.1 target))]

theorem share_of_standsFor (h : o.StandsFor reg m (unmarked (o.mark.getD formMark) raw).1 target) :
    o.share reg m formMark raw = .ok (o.shareFor (unmarked (o.mark.getD formMark) raw) target) := by
  unfold share
  simp only [meaning_of_standsFor h, Outcome.ok_bind]
  cases target <;> rfl

/-- A key adds what it stands for, or nothing if it stands for nothing. -/
theorem share_cases (h : o.share reg m formMark raw = .ok s) :
    (∃ target, o.StandsFor reg m (unmarked (o.mark.getD formMark) raw).1 target ∧
      s = o.shareFor (unmarked (o.mark.getD formMark) raw) target) ∨
    (∀ target, ¬ o.StandsFor reg m (unmarked (o.mark.getD formMark) raw).1 target) ∧ s = {} := by
  obtain ⟨meaning, hmeaning, h⟩ := Outcome.bind_eq_ok.mp h
  have hstands : ∀ target, meaning = .ofTarget target →
      o.StandsFor reg m (unmarked (o.mark.getD formMark) raw).1 target := by
    rintro target rfl
    exact standsFor_of_meaning hmeaning
  have hnothing : (∀ target, meaning ≠ .ofTarget target) →
      ∀ target, ¬ o.StandsFor reg m (unmarked (o.mark.getD formMark) raw).1 target := fun hne target htarget =>
    hne target (Except.ok.inj (hmeaning.symm.trans (meaning_of_standsFor htarget)))
  cases meaning with
  | path p =>
      cases h
      exact .inl ⟨.path p, hstands _ rfl, rfl⟩
  | expression e =>
      cases h
      exact .inl ⟨.expression e, hstands _ rfl, rfl⟩
  | passedOver =>
      cases h
      exact .inr ⟨hnothing fun target => by cases target <;> exact Meaning.noConfusion, rfl⟩
  | unknown =>
      simp only at h
      split at h
      · cases h
        exact .inr ⟨hnothing fun target => by cases target <;> exact Meaning.noConfusion, rfl⟩
      · cases h

end FormOrder

namespace BoundForm

variable {reg : Registry} {b : BoundForm} {base qs : Queryset} {target : FormTarget} {k : FormOrder × String}
  {name : String} {e : Expression} {asked : List (FormOrder × String)} {shares : List (Share OrderTerm)}

/-- A key that is asked for without its mark, and whether it had one. -/
def readKey (b : BoundForm) (k : FormOrder × String) : String × Bool :=
  FormOrder.unmarked (k.1.mark.getD b.form.mark) k.2

/-- What a key that is asked for stands for. -/
def StandsFor (reg : Registry) (b : BoundForm) (k : FormOrder × String) (target : FormTarget) : Prop :=
  k.1.StandsFor reg b.form.model (b.readKey k).1 target

/-- The last expression that keys stand for which are annotated under a name. -/
def LastUnder (reg : Registry) (b : BoundForm) (asked : List (FormOrder × String)) (name : String) (e : Expression) :
    Prop :=
  ∃ before k after, asked = before ++ k :: after ∧ FormOrder.label (b.readKey k).1 = name ∧
    b.StandsFor reg k (.expression e) ∧
    ∀ later ∈ after, FormOrder.label (b.readKey later).1 = name → ∀ e', ¬ b.StandsFor reg later (.expression e')

/-- Nothing else has the label of a key, and no annotation hides what it stands for. -/
def Clear (reg : Registry) (b : BoundForm) (qs : Queryset) (k : FormOrder × String) (target : FormTarget) : Prop :=
  (∀ p ∈ target.columns, p ∉ qs.annotations.map Prod.fst) ∧
    ∀ e, target = .expression e → ∀ k' ∈ b.askedKeys, ∀ e',
      FormOrder.label (b.readKey k').1 = FormOrder.label (b.readKey k).1 → b.StandsFor reg k' (.expression e') → e' = e

/-- A term of a key that stands for a target: it has the direction and the place of null that the order declares, and
the value of the target if that is clear. That of an expression has, in any case, the value of the last
expression asked for under its label while the other annotations are in place. -/
structure TermFor (reg : Registry) (b : BoundForm) (qs : Queryset) (k : FormOrder × String) (target : FormTarget)
    (t : OrderTerm) : Prop where
  descending : t.descending = (b.readKey k).2
  nulls : t.nulls = (k.1.nulls.lookup (b.readKey k).1).getD .least
  value : b.Clear reg qs k target → ∀ st pk,
    t.expr.eval reg st qs.model (Expression.annotationsOf reg st qs) pk = target.value reg st qs.model pk
  last : ∀ e, target = .expression e → ∃ last, b.LastUnder reg b.askedKeys (FormOrder.label (b.readKey k).1) last ∧
    ∀ st pk, t.expr.eval reg st qs.model (Expression.annotationsOf reg st qs) pk =
      last.eval reg st qs.model (Expression.annotationsOf reg st
        { qs with annotations := eraseEntry qs.annotations (FormOrder.label (b.readKey k).1) }) pk

/-- The terms of several keys, in their order: one for each key that stands for something. -/
inductive SortsBy (reg : Registry) (b : BoundForm) (qs : Queryset) : List (FormOrder × String) → List OrderTerm → Prop
  | nil : SortsBy reg b qs [] []
  | term {k : FormOrder × String} {asked : List (FormOrder × String)} {target : FormTarget} {t : OrderTerm}
      {terms : List OrderTerm} : b.StandsFor reg k target → b.TermFor reg qs k target t →
      SortsBy reg b qs asked terms → SortsBy reg b qs (k :: asked) (t :: terms)
  | passedOver {k : FormOrder × String} {asked : List (FormOrder × String)} {terms : List OrderTerm} :
      (∀ target, ¬ b.StandsFor reg k target) → SortsBy reg b qs asked terms → SortsBy reg b qs (k :: asked) terms

/-- The label of a key that stands for an expression is annotated. -/
theorem label_mem_of_standsFor
    (h : List.Forall₂ (fun k s => k.1.share reg b.form.model b.form.mark k.2 = .ok s) asked shares) (hk : k ∈ asked)
    (hstands : b.StandsFor reg k (.expression e)) :
    FormOrder.label (b.readKey k).1 ∈ (shares.flatMap (·.annotations)).map Prod.fst := by
  induction h with
  | nil => cases hk
  | cons hshare _ ih =>
      rw [List.flatMap_cons, List.map_append, List.mem_append]
      rcases List.mem_cons.mp hk with rfl | hk
      · rw [FormOrder.share_of_standsFor hstands] at hshare
        cases hshare
        exact .inl List.mem_cons_self
      · exact .inr (ih hk)

/-- Of the keys of a label the last is annotated. -/
theorem lastUnder_of_lookup
    (h : List.Forall₂ (fun k s => k.1.share reg b.form.model b.form.mark k.2 = .ok s) asked shares)
    (hlookup : (shares.flatMap (·.annotations)).reverse.lookup name = some e) : b.LastUnder reg asked name e := by
  induction h with
  | nil => cases hlookup
  | @cons k s asked shares hshare hrest ih =>
      rw [List.flatMap_cons, List.reverse_append, List.lookup_append] at hlookup
      cases hlater : (shares.flatMap (·.annotations)).reverse.lookup name with
      | some later =>
          rw [hlater] at hlookup
          cases hlookup
          obtain ⟨before, k', after, rfl, hlast⟩ := ih hlater
          exact ⟨k :: before, k', after, rfl, hlast⟩
      | none =>
          rw [hlater, Option.none_or] at hlookup
          have hmem := List.mem_reverse.mp (mem_of_lookup hlookup)
          rcases FormOrder.share_cases hshare with ⟨target, htarget, rfl⟩ | ⟨-, rfl⟩
          · cases target with
            | path p => cases hmem
            | expression e' =>
                cases List.mem_singleton.mp hmem
                refine ⟨[], k, asked, rfl, rfl, htarget, fun later hlaterMem hlabel e' hstands => ?_⟩
                -- A later key of the label would have been found.
                have hname := label_mem_of_standsFor hrest hlaterMem hstands
                rw [hlabel, ← List.mem_reverse, ← List.map_reverse] at hname
                exact lookup_eq_none_iff_not_mem_keys.mp hlater hname
          · cases hmem

theorem sortsBy_of_shares {terms : List OrderTerm} (hterms : terms = shares.flatMap (·.parts))
    (h : List.Forall₂ (fun k s => k.1.share reg b.form.model b.form.mark k.2 = .ok s) asked shares)
    (hterm : ∀ k ∈ asked, ∀ target, b.StandsFor reg k target → b.TermFor reg qs k target
      (k.1.term (b.readKey k).1 (b.readKey k).2 (.column (FormOrder.sortColumn (b.readKey k).1 target)))) :
    b.SortsBy reg qs asked terms := by
  subst hterms
  induction h with
  | nil => exact .nil
  | @cons k s asked shares hshare _ ih =>
      have hrest := ih fun k hk => hterm k (List.mem_cons_of_mem _ hk)
      rcases FormOrder.share_cases hshare with ⟨target, htarget, rfl⟩ | ⟨hnothing, rfl⟩
      · exact .term htarget (hterm k List.mem_cons_self target htarget) hrest
      · exact .passedOver hnothing hrest

/-- The terms of a filtered queryset are those of the keys that are asked for: each with the direction and the place
of null that its order declares, and with the value of what the key stands for, if nothing else has its
label and no annotation hides the paths. -/
theorem filtered_sorts (hordering : base.ordering = []) (h : b.filtered reg base = .ok qs) :
    b.SortsBy reg qs b.askedKeys qs.ordering := by
  obtain ⟨filters, keys, -, hkeys, rfl⟩ := filtered_eq_ok.mp h
  have hterms : (base.assembled filters keys).ordering = keys.flatMap (·.parts) := by
    rw [Queryset.assembled_ordering, hordering]
    split
    · rename_i hempty
      exact (List.isEmpty_iff.mp hempty).symm
    · rfl
  have hshares := Outcome.mapM_eq_ok.mp hkeys
  have hlast : ∀ k ∈ b.askedKeys, ∀ e, b.StandsFor reg k (.expression e) →
      ∃ last, b.LastUnder reg b.askedKeys (FormOrder.label (b.readKey k).1) last ∧
        (base.assembled filters keys).annotations.lookup (FormOrder.label (b.readKey k).1) = some last := by
    intro k hk e hstands
    have hmem := label_mem_of_standsFor hshares hk hstands
    rw [← List.mem_reverse, ← List.map_reverse, ← lookup_isSome_iff_mem_keys] at hmem
    obtain ⟨last, hlookup⟩ := Option.isSome_iff_exists.mp hmem
    refine ⟨last, lastUnder_of_lookup hshares hlookup, ?_⟩
    rw [Queryset.lookup_assembled, hlookup]
    rfl
  refine sortsBy_of_shares hterms hshares fun k hk target hstands =>
    ⟨rfl, rfl, fun hclear st pk => ?_, ?_⟩
  · cases target with
    | path p =>
        exact Store.columnValue_congr (Expression.annotationsOf_eq_none (hclear.1 p (List.mem_singleton_self p))) pk
    | expression e =>
        obtain ⟨last, ⟨before, k', after, hasked, hlabel, hlast, -⟩, hlookup⟩ := hlast k hk e hstands
        have hk' : k' ∈ b.askedKeys := hasked ▸ List.mem_append_right before List.mem_cons_self
        obtain rfl := hclear.2 e rfl k' hk' last hlabel hlast
        obtain ⟨value, hvalue, hsame⟩ := Expression.annotationsOf_of_lookup hlookup hclear.1
        exact (Expression.eval_column hvalue pk).trans (hsame pk)
  · rintro e rfl
    obtain ⟨last, hunder, hlookup⟩ := hlast k hk e hstands
    exact ⟨last, hunder, fun st pk => Expression.eval_column
      ((Expression.annotationsOf_eq _ _).trans (congrArg (Option.map _) hlookup)) pk⟩

end BoundForm

/-! ## Orders of articles -/

namespace QueryForm

open Registry

/-- Articles by author, those of none last, and then by their size, which is the number of their words, the longest
first. -/
def orderedArticles : QueryForm where
  model := article
  filters := []
  orders :=
    [{ name := "by", keys := [("size", .expression (.column "words")), ("author", .path "author")],
       nulls := [("author", .last)], defaults := ["author", "-size"] }]

theorem sorts_orderedArticles :
    (Queryset.all article).ordering = [] ∧
      ∃ b qs, orderedArticles.bind [] = .ok b ∧ b.filtered (built writers) (Queryset.all article) = .ok qs ∧
        b.SortsBy (built writers) qs b.askedKeys qs.ordering ∧
        Store.select (built writers) writings qs = .ok [.int 2, .int 1, .int 3] := by
  have hordering : (Queryset.all article).ordering = [] := rfl
  obtain ⟨qs, hqs, hselect⟩ : ∃ qs, (⟨orderedArticles, [], none⟩ : BoundForm).filtered (built writers)
      (Queryset.all article) = .ok qs ∧ Store.select (built writers) writings qs = .ok [.int 2, .int 1, .int 3] :=
    ⟨_, rfl, rfl⟩
  exact ⟨hordering, _, qs, rfl, hqs, BoundForm.filtered_sorts hordering hqs, hselect⟩

/-! ### Two orders with a key of one name -/

/-- The words of an article, the fewest first. -/
def fewestWords : FormOrder :=
  { name := "first", keys := [("size", .expression (.column "words"))], defaults := ["size"] }

/-- The words of an article, the most first. -/
def mostWords : FormOrder :=
  { name := "then", keys := [("size", .expression (.arith .sub (.literal (.int 0)) (.column "words")))],
    defaults := ["size"] }

def twiceSized : QueryForm := { model := article, filters := [], orders := [fewestWords, mostWords] }

/-- The form bound to no input, so that both orders take their defaults. -/
def boundToBoth : BoundForm := ⟨twiceSized, [], none⟩

/-- The term of the first order has the value that the second declares. -/
theorem label_shared :
    twiceSized.check (built writers) = .ok () ∧ twiceSized.bind [] = .ok boundToBoth ∧
      (Queryset.all article).ordering = [] ∧ (Queryset.all article).annotations = [] ∧
      boundToBoth.askedKeys = [(fewestWords, "size"), (mostWords, "size")] ∧
      boundToBoth.StandsFor (built writers) (fewestWords, "size") (.expression (.column "words")) ∧
      ∃ qs t, boundToBoth.filtered (built writers) (Queryset.all article) = .ok qs ∧ qs.ordering.head? = some t ∧
        (FormTarget.expression (.column "words")).value (built writers) writings qs.model (.int 1) = .ok (.int 300) ∧
        t.expr.eval (built writers) writings qs.model (Expression.annotationsOf (built writers) writings qs) (.int 1) =
          .ok (.int (-300)) :=
  ⟨rfl, rfl, rfl, rfl, rfl, .declared rfl, _, _, rfl, rfl, rfl, rfl⟩

end QueryForm

end RecordMapper
