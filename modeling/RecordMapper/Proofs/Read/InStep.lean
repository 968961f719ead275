import RecordMapper.Proofs.Read.Prepared
import RecordMapper.Proofs.Read.Strict
import RecordMapper.Proofs.Steps.Made

/-!
# In step — reads of two schemas that go the same way

Two schemas of one model can differ in what they are called and known as.
Reads of them go in step: they ask the same of the databases, yield the
same values or both fail, and keep guards related that were. What has to
be known for that of the schemas that a read can meet is a `Pairing`:
paired schemas make the same plans, know the same rows, and lead to
paired schemas.
-/

namespace RecordMapper

namespace Outcome

variable {α β γ δ : Type} {Q : α → β → Prop}

/-- Outcomes that both succeed, with related values, or both fail. -/
def Both (Q : α → β → Prop) : Outcome α → Outcome β → Prop
  | .ok a, .ok b => Q a b
  | .error _, .error _ => True
  | _, _ => False

theorem both_refl (o : Outcome α) : Both Eq o o := by
  cases o with
  | ok a => exact rfl
  | error e => exact trivial

theorem Both.imp {Q' : α → β → Prop} {o : Outcome α} {o' : Outcome β} (h : Both Q o o')
    (himp : ∀ a b, Q a b → Q' a b) : Both Q' o o' := by
  cases o with
  | ok a =>
      cases o' with
      | ok b => exact himp a b h
      | error e' => exact h
  | error e =>
      cases o' with
      | ok b => exact h
      | error e' => exact trivial

theorem Both.bind {o : Outcome α} {o' : Outcome β} {S : γ → δ → Prop} {k : α → Outcome γ} {k' : β → Outcome δ}
    (h : Both Q o o') (hk : ∀ a b, Q a b → Both S (k a) (k' b)) : Both S (o >>= k) (o' >>= k') := by
  cases o with
  | ok a =>
      cases o' with
      | ok b => exact hk a b h
      | error e' => exact h.elim
  | error e =>
      cases o' with
      | ok b => exact h.elim
      | error e' => exact trivial

theorem Both.eq_ok_iff {o o' : Outcome α} (h : Both Eq o o') (a : α) : o' = .ok a ↔ o = .ok a := by
  cases o with
  | ok b =>
      cases o' with
      | ok b' =>
          obtain rfl : b = b' := h
          exact Iff.rfl
      | error e' => exact h.elim
  | error e =>
      cases o' with
      | ok b' => exact h.elim
      | error e' => exact ⟨nofun, nofun⟩

end Outcome

namespace Reading

variable {α β γ δ : Type} {R : Guard → Guard → Prop} {Q : α → β → Prop} {S : γ → δ → Prop}

/-- Reads that ask the same, yield related values or both fail, and keep guards related. -/
def InStep (R : Guard → Guard → Prop) (Q : α → β → Prop) (r : Reading α) (r' : Reading β) : Prop :=
  ∀ (w : World) (g g' : Guard), R g g' →
    Outcome.Both Q (w.run (r.run.run g)).1.1 (w.run (r'.run.run g')).1.1 ∧
      R (w.run (r.run.run g)).1.2 (w.run (r'.run.run g')).1.2 ∧ (w.run (r'.run.run g')).2 = (w.run (r.run.run g)).2

namespace InStep

theorem pure {a : α} {b : β} (h : Q a b) : InStep R Q (Pure.pure a) (Pure.pure b) := fun _ _ _ hR => ⟨h, hR, rfl⟩

theorem throw (e e' : Failure) : InStep R Q (MonadExcept.throw e) (MonadExcept.throw e') :=
  fun _ _ _ hR => ⟨trivial, hR, rfl⟩

theorem ofOutcome {o : Outcome α} {o' : Outcome β} (h : Outcome.Both Q o o') :
    InStep R Q (Reading.ofOutcome o) (Reading.ofOutcome o') := fun _ _ _ hR => ⟨h, hR, rfl⟩

theorem run_ofJob (j : Job α) (w : World) (g : Guard) :
    w.run ((Reading.ofJob j).run.run g) = (((w.runJob j).1, g), (w.runJob j).2) := by
  rw [Reading.run_ofJob, World.run_bind]
  rfl

theorem refl (j : Job α) : InStep R Eq (Reading.ofJob j) (Reading.ofJob j) := by
  intro w g g' hR
  rw [run_ofJob, run_ofJob]
  exact ⟨Outcome.both_refl _, hR, rfl⟩

/-- What a job returns holds of what reads in step with it yield. -/
theorem returning {P : α → Prop} {j j' : Job α} (h : InStep R Eq (Reading.ofJob j) (Reading.ofJob j'))
    (hP : Job.Returns P j) :
    InStep R (fun a b => a = b ∧ P a) (Reading.ofJob j) (Reading.ofJob j') := by
  intro w g g' hR
  obtain ⟨hsame, hrest⟩ := h w g g' hR
  refine ⟨?_, hrest⟩
  rw [run_ofJob] at hsame ⊢
  have hP := hP w
  generalize (w.runJob j).1 = outcome at hsame hP ⊢
  generalize (w.run ((Reading.ofJob j').run.run g')).1.1 = outcome' at hsame ⊢
  cases outcome with
  | ok a =>
      cases outcome' with
      | ok b => exact ⟨hsame, hP a rfl⟩
      | error e => exact hsame
  | error e =>
      cases outcome' with
      | ok b => exact hsame
      | error e' => exact trivial

theorem ofJob {P : α → Prop} {j : Job α} (h : Job.Returns P j) :
    InStep R (fun a b => a = b ∧ P a) (Reading.ofJob j) (Reading.ofJob j) := (refl j).returning h

theorem guard : InStep R R Reading.guard Reading.guard := fun _ _ _ hR => ⟨hR, hR, rfl⟩

theorem record {change change' : Guard → Guard} (h : ∀ g g', R g g' → R (change g) (change' g')) :
    InStep R (fun _ _ => True) (Reading.record change) (Reading.record change') :=
  fun _ g g' hR => ⟨trivial, h g g' hR, rfl⟩

theorem bind {r : Reading α} {r' : Reading β} {k : α → Reading γ} {k' : β → Reading δ} (h : InStep R Q r r')
    (hk : ∀ a b, Q a b → InStep R S (k a) (k' b)) : InStep R S (r >>= k) (r' >>= k') := by
  intro w g g' hR
  obtain ⟨hQ, hR', hw⟩ := h w g g' hR
  rcases hran : w.run (r.run.run g) with ⟨⟨outcome, g₁⟩, w₁⟩
  rcases hran' : w.run (r'.run.run g') with ⟨⟨outcome', g₁'⟩, w₁'⟩
  rw [hran, hran'] at hQ hR' hw
  obtain rfl : w₁' = w₁ := hw
  cases outcome with
  | ok a =>
      cases outcome' with
      | ok b =>
          rw [World.run_state_bind_ok hran, World.run_state_bind_ok hran']
          exact hk a b hQ w₁' g₁ g₁' hR'
      | error e' => exact hQ.elim
  | error e =>
      cases outcome' with
      | ok b => exact hQ.elim
      | error e' =>
          rw [World.run_state_bind_error (by rw [hran]), World.run_state_bind_error (by rw [hran']), hran, hran']
          exact ⟨trivial, hR', rfl⟩

theorem attempt {r : Reading α} {r' : Reading β} (h : InStep R Q r r') :
    InStep R (Outcome.Both Q) (Reading.attempt r) (Reading.attempt r') := by
  intro w g g' hR
  rw [run_attempt, run_attempt]
  exact h w g g' hR

theorem foldlM {ι : Type} {f f' : γ → ι → Reading γ} {l : List ι}
    (h : ∀ i ∈ l, ∀ c, InStep R Eq (f c i) (f' c i)) (c : γ) : InStep R Eq (l.foldlM f c) (l.foldlM f' c) := by
  induction l generalizing c with
  | nil => exact pure rfl
  | cons i rest ih =>
      rw [List.foldlM_cons, List.foldlM_cons]
      refine bind (h i List.mem_cons_self c) fun c c' hc => ?_
      subst hc
      exact ih (fun j hj => h j (List.mem_cons_of_mem i hj)) c

end InStep

end Reading

/-! ## Fields that a read resolves -/

namespace ReadPlan

variable {reg : Registry} {s : Schema} {ctx : Context} {sliced : Bool} {now : Instant} {plan : ReadPlan}

/-- A field that is asked for, or that a property asked for depends on. -/
def Needed (s : Schema) (ctx : Context) (f : SchemaField) : Prop :=
  f ∈ s.fieldList ∧ f.name ∈ neededNames (requested s ctx)

theorem needed_of_make (h : make reg s ctx sliced now = .ok plan) : ∀ f ∈ plan.isolated, Needed s ctx f := by
  unfold make at h
  obtain ⟨middle, hmiddle, hforced⟩ := Outcome.bind_eq_ok.mp h
  obtain ⟨more, _, rfl⟩ := foldlM_addForced hforced
  refine Outcome.foldlM_keeps (P := fun p => ∀ f ∈ p.isolated, Needed s ctx f)
    (fun f hf p p' hp hstep => ?_) (by simp) hmiddle
  have hneeded : Needed s ctx f := by
    obtain ⟨hmem, hname⟩ := List.mem_filter.mp hf
    exact ⟨hmem, List.contains_iff_mem.mp hname⟩
  rcases addField_cases hstep with ⟨_, _, _, _, rfl⟩ | ⟨_, rfl⟩ | ⟨_, _, _, _, rfl⟩
  · exact hp
  · intro g hg
    rcases List.mem_append.mp hg with hg | hg
    · exact hp g hg
    · rw [List.mem_singleton.mp hg]
      exact hneeded
  · exact hp

end ReadPlan

namespace Application

variable {app : Application} {ctx : Context}

theorem nested_of_none {s : Schema} {f : SchemaField} (h : f.nested = none) : app.nested? s f = .ok none := by
  rw [nested?, h]
  rfl

/-- Links are collected for the fields of the plan. -/
theorem returns_collect (together : Bool) (plan : ReadPlan) (owners : List Value) :
    Job.Returns (fun cs => ∀ c ∈ cs, c.field ∈ plan.isolated) (app.collect together ctx plan owners) := by
  have hstart : ∀ f ∈ plan.isolated, ∀ c, Collecting.start app ctx owners f = .ok c → c.field ∈ plan.isolated :=
    fun f hf c hc => Collecting.field_of_start hc ▸ hf
  have hadvance : ∀ c : Collecting, c.field ∈ plan.isolated →
      Job.Yields (fun c => c.field ∈ plan.isolated) (c.advance app ctx) :=
    fun c hc => (Collecting.yields_advance c).imp fun c' hc' => hc'.1 ▸ hc
  intro w cs hcs
  unfold collect at hcs
  split at hcs
  · exact (Collecting.yields_sideBySide hstart hadvance w).2 cs hcs
  · exact (Collecting.yields_inTurn hstart hadvance w).2 cs hcs

end Application

/-! ## Pairings -/

namespace Reading

/-- Schemas that reads can meet in step, in the contexts in which they are met. -/
structure Pairing (app : Application) (R : Guard → Guard → Prop) (Pair : Schema → Schema → Context → Prop) : Prop where
  model : ∀ {s s' ctx}, Pair s s' ctx → s'.model = s.model
  pkName : ∀ {s s' ctx}, Pair s s' ctx → s'.pkName = s.pkName
  plan : ∀ {s s' ctx}, Pair s s' ctx → ∀ sliced now,
    ReadPlan.make app.registry s' ctx sliced now = ReadPlan.make app.registry s ctx sliced now
  rows : ∀ {s s' ctx g g'}, Pair s s' ctx → R g g' → g'.rows (ctx.guardKey s'.id) = g.rows (ctx.guardKey s.id)
  register : ∀ {s s' ctx g g'}, Pair s s' ctx → R g g' → ∀ rows,
    R (g.register (ctx.guardKey s.id) rows) (g'.register (ctx.guardKey s'.id) rows) ∧
      R (g.registerMissing (ctx.guardKey s.id) rows) (g'.registerMissing (ctx.guardKey s'.id) rows)
  nested : ∀ {s s' ctx f}, Pair s s' ctx → ReadPlan.Needed s ctx f →
    Outcome.Both (Option.Rel fun t t' => Pair t t' (ctx.derive f.name)) (app.nested? s f) (app.nested? s' f)

variable {app : Application} {R : Guard → Guard → Prop} {Pair : Schema → Schema → Context → Prop}
  {s s' : Schema} {ctx : Context} {f : SchemaField}
  {read read' : Schema → Source → Context → Reading (List Record)}

/-- Schemas of one model and key come to the same request, or both to none. -/
theorem both_request (hmodel : s'.model = s.model) (hpk : s'.pkName = s.pkName) (reg : Registry) (src : Source)
    (single : Bool) : Outcome.Both Eq (s.request? reg src single) (s'.request? reg src single) := by
  have hkeys : ∀ pks, s'.requestOfKeys pks single = s.requestOfKeys pks single := by
    intro pks
    simp only [Schema.requestOfKeys, hmodel]
  have hkey : s'.keyOf? = s.keyOf? := by
    funext data
    simp only [Schema.keyOf?, hmodel, hpk]
  cases src with
  | queryset qs =>
      simp only [Schema.request?, hmodel]
      split
      · exact trivial
      · exact Outcome.both_refl _
  | key pk => simp only [Schema.request?, hkeys, Outcome.both_refl]
  | keys pks => simp only [Schema.request?, hkeys, Outcome.both_refl]
  | records rs => simp only [Schema.request?, hkey, hkeys, Outcome.both_refl]

theorem inStep_prepare (hmodel : s'.model = s.model) (hpk : s'.pkName = s.pkName)
    (hplan : ∀ sliced now, ReadPlan.make app.registry s' ctx sliced now = ReadPlan.make app.registry s ctx sliced now)
    (src : Source) : InStep R Eq (ofJob (app.prepare s src ctx)) (ofJob (app.prepare s' src ctx)) := by
  rw [Application.prepare, Application.prepare, ofJob_bind, ofJob_bind]
  refine .bind (.ofOutcome (both_request hmodel hpk app.registry src ctx.single)) fun request request' hrequest => ?_
  subst hrequest
  cases request with
  | none => exact .pure rfl
  | some request =>
      simp only [hplan, hpk]
      exact .refl _

section Fields

variable (h : Pairing app R Pair)
  (hread : ∀ t t' ctx, Pair t t' ctx → ∀ src, InStep R Eq (read t src ctx) (read' t' src ctx))
include h hread

theorem inStep_materialize (hs : Pair s s' ctx) (hf : ReadPlan.Needed s ctx f) (links : Links) :
    InStep R Eq (materialize app read s ctx f links) (materialize app read' s' ctx f links) := by
  refine .bind (.ofOutcome (h.nested hs hf)) fun nested nested' hnested => ?_
  cases hnested with
  | none => exact .pure rfl
  | @some t t' ht =>
      have hget : ∀ g g', R g g' → g'.get? ((ctx.derive f.name).guardKey t'.id) =
          g.get? ((ctx.derive f.name).guardKey t.id) := by
        intro g g' hR
        funext pk
        rw [Guard.get?, Guard.get?, h.rows ht hR]
      have hlook : InStep R Eq
          (do let g ← guard
              return f.shape links fun pk => (g.get? ((ctx.derive f.name).guardKey t.id) pk).map .map)
          (do let g ← guard
              return f.shape links fun pk => (g.get? ((ctx.derive f.name).guardKey t'.id) pk).map .map) := by
        refine .bind .guard fun g g' hR => .pure ?_
        rw [hget g g' hR]
      refine .bind .guard fun g g' hR => ?_
      have hmissing : g'.unresolved ((ctx.derive f.name).guardKey t'.id) links.related =
          g.unresolved ((ctx.derive f.name).guardKey t.id) links.related := by
        simp only [Guard.unresolved, Guard.contains, hget g g' hR]
      dsimp only
      rw [hmissing]
      split
      · exact .bind (hread t t' _ ht _) fun _ _ _ => hlook
      · exact hlook

theorem inStep_resolveField (hs : Pair s s' ctx) {c : Collecting} (hc : ReadPlan.Needed s ctx c.field)
    (rows : List Record) : InStep R Eq (resolveField app read s ctx rows c) (resolveField app read' s' ctx rows c) := by
  refine .bind (inStep_materialize h hread hs hc c.links).attempt fun outcome outcome' hsame => ?_
  cases outcome with
  | ok values =>
      cases outcome' with
      | ok values' =>
          obtain rfl : values = values' := hsame
          rw [h.pkName hs]
          exact .pure rfl
      | error e' => exact hsame.elim
  | error e =>
      cases outcome' with
      | ok values' => exact hsame.elim
      | error e' =>
          -- Whether a failure is passed over does not depend on what failed.
          cases hsilent : c.field.silent && !ctx.raises with
          | true =>
              simp only [SchemaField.report?, hsilent]
              exact .pure rfl
          | false =>
              simp only [SchemaField.report?, hsilent]
              exact .throw _ _

end Fields

/-- Reads of paired schemas go in step. -/
theorem inStep_rowsWithin (h : Pairing app R Pair) (together : Bool) (levels : Nat) (hs : Pair s s' ctx) (src : Source) :
    InStep R Eq (rowsWithin app together levels s src ctx) (rowsWithin app together levels s' src ctx) := by
  induction levels generalizing s s' src ctx with
  | zero => exact .pure rfl
  | succ levels ih =>
      rw [rowsWithin_succ, rowsWithin_succ]
      have hprepared : Job.Returns (fun prepared => ∀ plan rows, prepared = some (plan, rows) →
          ∀ f ∈ plan.isolated, ReadPlan.Needed s ctx f) (app.prepare s src ctx) := by
        rintro w _ hp plan rows rfl
        obtain ⟨_, _, _, _, hplan, _⟩ := Application.exists_of_prepare hp
        exact ReadPlan.needed_of_make hplan
      refine .bind ((inStep_prepare (h.model hs) (h.pkName hs) (h.plan hs) src).returning hprepared) ?_
      rintro prepared _ ⟨rfl, hneeded⟩
      cases prepared with
      | none => exact .pure rfl
      | some p =>
          obtain ⟨plan, rows⟩ := p
          have hneeded := hneeded plan rows rfl
          unfold resolveRows
          simp only [h.pkName hs]
          refine .bind (.record fun g g' hR => (h.register hs hR _).2) fun _ _ _ => ?_
          refine .bind (.ofJob (app.returns_collect together plan _)) ?_
          rintro collected _ ⟨rfl, hcollected⟩
          refine .bind (.foldlM (fun c hc rows => ?_) rows) fun rows _ hrows => ?_
          · exact inStep_resolveField h (fun _ _ _ ht src => ih ht src) hs (hneeded _ (hcollected c hc)) rows
          · subst hrows
            exact .bind (.record fun g g' hR => (h.register hs hR _).1) fun _ _ _ => .pure rfl

end Reading

end RecordMapper

/-!
## Keeping — what a read keeps of the world

A part of a read keeps a relation of worlds if it always leads to a
world that is related to the one it runs in, whatever the guard knows.
Then what is put together from such parts keeps it too, up to resolving
rows with all their fields (`keeps_resolveRows`).
-/

namespace RecordMapper

namespace Reading

variable {α β : Type} {R : World → World → Prop}

/-- A part of a read leads from every world, whatever the guard knows, to one that `R` relates to it. -/
def Keeps (R : World → World → Prop) (r : Reading α) : Prop := ∀ (g : Guard) (w : World), R w (w.run (r.run.run g)).2

namespace Keeps

variable (hR : Job.Composes R)
include hR

theorem pure (a : α) : Keeps R (Pure.pure a : Reading α) := fun _ => hR.refl

theorem throw (e : Failure) : Keeps R (MonadExcept.throw e : Reading α) := fun _ => hR.refl

theorem record (change : Guard → Guard) : Keeps R (Reading.record change) := fun _ => hR.refl

theorem guard : Keeps R Reading.guard := fun _ => hR.refl

theorem bind {r : Reading α} {k : α → Reading β} (h : Keeps R r) (hk : ∀ a, Keeps R (k a)) : Keeps R (r >>= k) := by
  intro g w
  have hfirst := h g w
  rw [run_bind, World.run_bind]
  generalize w.run (r.run.run g) = ran at hfirst ⊢
  obtain ⟨⟨outcome, g'⟩, w'⟩ := ran
  cases outcome with
  | ok a => exact hR.trans hfirst (hk a g' w')
  | error e => exact hfirst

/-- Of what follows a job, only what follows its results matters. -/
theorem ofJob_bind {j : Job α} {P : α → Prop} {k : α → Reading β} (h : Job.Keeps R j) (hP : Job.Returns P j)
    (hk : ∀ a, P a → Keeps R (k a)) : Keeps R (Reading.ofJob j >>= k) := by
  intro g w
  rw [run_bind, World.run_bind, InStep.run_ofJob]
  have hfirst := h w
  have hresult := hP w
  generalize w.runJob j = ran at hfirst hresult ⊢
  obtain ⟨outcome, w'⟩ := ran
  cases outcome with
  | ok a => exact hR.trans hfirst (hk a (hresult a rfl) g w')
  | error e => exact hfirst

theorem foldlM {f : β → α → Reading β} {l : List α} (h : ∀ a ∈ l, ∀ b, Keeps R (f b a)) (b : β) :
    Keeps R (l.foldlM f b) := by
  induction l generalizing b with
  | nil => exact pure hR b
  | cons a rest ih =>
      rw [List.foldlM_cons]
      exact bind hR (h a List.mem_cons_self b) fun b' => ih (fun x hx => h x (List.mem_cons_of_mem a hx)) b'

omit hR in
theorem attempt {r : Reading α} (h : Keeps R r) : Keeps R (Reading.attempt r) := by
  intro g w
  rw [run_attempt]
  exact h g w

end Keeps

variable {app : Application} {read : Schema → Source → Context → Reading (List Record)} {s : Schema} {ctx : Context}
  {plan : ReadPlan}

section Parts

variable {fields : List SchemaField} (hR : Job.Composes R)
  (hread : ∀ f ∈ fields, ∀ nested, app.nested? s f = .ok (some nested) →
    ∀ pks, Keeps R (read nested (.keys pks) (ctx.derive f.name)))
include hR hread

theorem keeps_resolveField {c : Collecting} (hc : c.field ∈ fields) (rows : List Record) :
    Keeps R (resolveField app read s ctx rows c) := by
  have hvalues : Keeps R (materialize app read s ctx c.field c.links) := by
    refine .ofJob_bind hR (.ofOutcome hR _) (P := fun nested => app.nested? s c.field = .ok nested)
      (fun _ _ h => h) fun nested hnested => ?_
    cases nested with
    | none => exact .pure hR _
    | some nested =>
        refine .bind hR (.guard hR) fun g => ?_
        dsimp only
        split
        · refine .bind hR (hread c.field hc nested hnested _) fun _ => .bind hR (.guard hR) fun _ => .pure hR _
        · exact .bind hR (.guard hR) fun _ => .pure hR _
  refine .bind hR hvalues.attempt fun outcome => ?_
  cases outcome with
  | ok values => exact .pure hR _
  | error e =>
      dsimp only
      split
      · exact .throw hR _
      · exact .pure hR _

theorem keeps_resolveRows (hplan : plan.isolated = fields) (together : Bool)
    (hcollect : ∀ owners, Job.Keeps R (app.collect together ctx plan owners)) (rows : List Record) :
    Keeps R (resolveRows app together read s ctx plan rows) := by
  subst hplan
  refine .bind hR (.record hR _) fun _ => ?_
  refine .ofJob_bind hR (hcollect _) (app.returns_collect together plan _) fun collected hcollected => ?_
  refine .bind hR (.foldlM hR (fun c hc rows => ?_) rows) fun rows => ?_
  · exact keeps_resolveField hR hread (hcollected c hc) rows
  · exact .bind hR (.record hR _) fun _ => .pure hR _

end Parts

end Reading

end RecordMapper
