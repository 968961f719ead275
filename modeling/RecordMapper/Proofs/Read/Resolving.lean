import RecordMapper.Proofs.Read.Collected
import RecordMapper.Proofs.Read.Journal

/-!
# Resolving — isolated fields, one after another

Whatever a nested read does, the rows of the outer one keep their keys:
no isolated field bears the name of the key, unless the key itself is a
relation, and then no row has a key that could name a row. For every
relation that nested reads keep, resolving the fields of rows keeps it.
-/

/-!
## Moments — reads run piece by piece

A moment is a journal in a world, and a read leads from one moment to
another. `LeadsTo R Q m r r'` says of a moment `m` that `r` and `r'` do
the same there, that `R` relates what they lead to with `m`, and that `Q`
holds of what they yield. For a reflexive and transitive `R` it is
enough to look at the parts of a read; the links and the fields of rows
are resolved in one way for all such relations (`leads_resolveFields`).
-/

namespace RecordMapper

/-- A journal in a world. -/
structure Moment where
  journal : Journal
  world : World

/-- A relation of moments that holds of no change and of one change after another. -/
structure Moment.Composes (R : Moment → Moment → Prop) : Prop where
  refl : ∀ m, R m m
  trans : ∀ {m m' m''}, R m m' → R m' m'' → R m m''

namespace Journaling

variable {α β : Type}

/-! ## Running -/

/-- Runs a read to its end. -/
def exec (r : Journaling α) (m : Moment) : Outcome α × Moment :=
  (((m.world.run (r.run.run m.journal)).1).1,
    ⟨((m.world.run (r.run.run m.journal)).1).2, (m.world.run (r.run.run m.journal)).2⟩)

theorem exec_bind (r : Journaling α) (k : α → Journaling β) (m : Moment) :
    (r >>= k).exec m = match r.exec m with
      | (.ok a, m') => (k a).exec m'
      | (.error e, m') => (.error e, m') := by
  rw [exec, run_bind, World.run_bind, exec]
  generalize m.world.run (r.run.run m.journal) = result
  obtain ⟨⟨outcome, j⟩, w⟩ := result
  cases outcome <;> rfl

@[simp] theorem exec_pure (a : α) (m : Moment) : (Pure.pure a : Journaling α).exec m = (.ok a, m) := rfl

@[simp] theorem exec_throw (e : Failure) (m : Moment) :
    (MonadExcept.throw e : Journaling α).exec m = (.error e, m) := rfl

@[simp] theorem exec_guard (m : Moment) : guard.exec m = (.ok m.journal.guard, m) := rfl

@[simp] theorem exec_record (change : Journal → Journal) (m : Moment) :
    (record change).exec m = (.ok (), ⟨change m.journal, m.world⟩) := rfl

@[simp] theorem exec_ofJob (job : Job α) (m : Moment) :
    (ofJob job).exec m = ((m.world.runJob job).1, ⟨m.journal, (m.world.runJob job).2⟩) := by
  have hrun : (ofJob job).run.run m.journal = job.run.bind fun r => .done (r, m.journal) := rfl
  rw [exec, hrun, World.run_bind]
  rfl

@[simp] theorem exec_attempt (r : Journaling α) (m : Moment) :
    (attempt r).exec m = (.ok (r.exec m).1, (r.exec m).2) := by
  have hrun : m.world.run ((attempt r).run.run m.journal) = _ := World.run_bind (r.run.run m.journal) _ _
  rw [exec, hrun]
  rfl

/-- A call begins, runs and ends. -/
@[simp] theorem exec_call (r : Journaling α) (m : Moment) :
    (call r).exec m = ((r.exec ⟨m.journal.enter, m.world⟩).1,
      ⟨(r.exec ⟨m.journal.enter, m.world⟩).2.journal.leave (r.exec ⟨m.journal.enter, m.world⟩).1.isOk,
        (r.exec ⟨m.journal.enter, m.world⟩).2.world⟩) := by
  have hrun : m.world.run ((call r).run.run m.journal) = _ := World.run_bind (r.run.run m.journal.enter) _ _
  rw [exec, hrun]
  rfl

/-! ## Where a read leads -/

variable {R : Moment → Moment → Prop} {Q : α → Prop} {P : β → Prop} {m : Moment} {r r' : Journaling α}

/-- Two reads do the same from a moment on, lead to a moment that `R` relates to it and yield what `Q`
holds of. -/
structure LeadsTo (R : Moment → Moment → Prop) (Q : α → Prop) (m : Moment) (r r' : Journaling α) :
    Prop where
  same : r.exec m = r'.exec m
  leads : R m (r.exec m).2
  yields : ∀ a, (r.exec m).1 = .ok a → Q a

namespace LeadsTo

theorem pure (hR : Moment.Composes R) {a : α} (h : Q a) : LeadsTo R Q m (Pure.pure a) (Pure.pure a) where
  same := rfl
  leads := hR.refl m
  yields := by
    rintro _ ⟨⟩
    exact h

theorem throw (hR : Moment.Composes R) (e : Failure) :
    LeadsTo R Q m (MonadExcept.throw e) (MonadExcept.throw e) where
  same := rfl
  leads := hR.refl m
  yields := by rintro _ ⟨⟩

theorem bind (hR : Moment.Composes R) {k k' : α → Journaling β} (h : LeadsTo R Q m r r')
    (hk : ∀ a m', R m m' → Q a → LeadsTo R P m' (k a) (k' a)) : LeadsTo R P m (r >>= k) (r' >>= k') := by
  obtain ⟨hsame, hleads, hyields⟩ := h
  have hexec := exec_bind r k m
  have hexec' := exec_bind r' k' m
  rw [← hsame] at hexec'
  generalize r.exec m = result at hexec hexec' hleads hyields
  obtain ⟨outcome, m'⟩ := result
  cases outcome with
  | error e =>
      refine ⟨hexec.trans hexec'.symm, hexec ▸ hleads, ?_⟩
      rw [hexec]
      rintro _ ⟨⟩
  | ok a =>
      obtain ⟨hsame', hleads', hyields'⟩ := hk a m' hleads (hyields a rfl)
      refine ⟨hexec.trans (hsame'.trans hexec'.symm), ?_, ?_⟩
      · rw [hexec]
        exact hR.trans hleads hleads'
      · rw [hexec]
        exact hyields'

theorem attempt (h : LeadsTo R Q m r r') :
    LeadsTo R (fun outcome : Outcome α => ∀ a, outcome = .ok a → Q a) m (Journaling.attempt r)
      (Journaling.attempt r') where
  same := by rw [exec_attempt, exec_attempt, h.same]
  leads := by
    rw [exec_attempt]
    exact h.leads
  yields := by
    rw [exec_attempt]
    rintro _ ⟨⟩
    exact h.yields

theorem ofJob {job : Job α} (hR : ∀ w, m.world.Unchanged w → R m ⟨m.journal, w⟩) (h : Job.Yields Q job) :
    LeadsTo R Q m (Journaling.ofJob job) (Journaling.ofJob job) where
  same := rfl
  leads := by
    rw [exec_ofJob]
    exact hR _ (h m.world).1
  yields := by
    rw [exec_ofJob]
    exact (h m.world).2

/-- A job first, and then what follows in the world it leaves. -/
theorem ofJob_bind {job : Job α} {k k' : α → Journaling β} (hR : Moment.Composes R)
    (hw : R m ⟨m.journal, (m.world.runJob job).2⟩)
    (hk : ∀ a, (m.world.runJob job).1 = .ok a →
      LeadsTo R P ⟨m.journal, (m.world.runJob job).2⟩ (k a) (k' a)) :
    LeadsTo R P m (Journaling.ofJob job >>= k) (Journaling.ofJob job >>= k') := by
  have hexec := exec_bind (Journaling.ofJob job) k m
  have hexec' := exec_bind (Journaling.ofJob job) k' m
  rw [exec_ofJob] at hexec hexec'
  generalize (m.world.runJob job).1 = outcome at hexec hexec' hk
  cases outcome with
  | error e =>
      refine ⟨hexec.trans hexec'.symm, hexec ▸ hw, ?_⟩
      rw [hexec]
      rintro _ ⟨⟩
  | ok a =>
      obtain ⟨hsame, hleads, hyields⟩ := hk a rfl
      refine ⟨hexec.trans (hsame.trans hexec'.symm), ?_, ?_⟩
      · rw [hexec]
        exact hR.trans hw hleads
      · rw [hexec]
        exact hyields

theorem guard {k k' : Guard → Journaling α} (h : LeadsTo R Q m (k m.journal.guard) (k' m.journal.guard)) :
    LeadsTo R Q m (Journaling.guard >>= k) (Journaling.guard >>= k') := by
  have hexec : ∀ k : Guard → Journaling α, (Journaling.guard >>= k).exec m = (k m.journal.guard).exec m :=
    fun k => by rw [exec_bind, exec_guard]
  constructor
  · rw [hexec, hexec]
    exact h.same
  · rw [hexec]
    exact h.leads
  · rw [hexec]
    exact h.yields

theorem record {change : Journal → Journal} {Q : Unit → Prop} (h : R m ⟨change m.journal, m.world⟩)
    (hQ : Q ()) : LeadsTo R Q m (Journaling.record change) (Journaling.record change) :=
  ⟨rfl, h, fun _ _ => hQ⟩

theorem foldlM (hR : Moment.Composes R) {f f' : α → β → Journaling α} {l : List β} {a : α} (ha : Q a)
    (h : ∀ b ∈ l, ∀ a m', R m m' → Q a → LeadsTo R Q m' (f a b) (f' a b)) :
    LeadsTo R Q m (l.foldlM f a) (l.foldlM f' a) := by
  induction l generalizing a m with
  | nil => exact pure hR ha
  | cons b rest ih =>
      rw [List.foldlM_cons, List.foldlM_cons]
      refine bind hR (h b List.mem_cons_self a m (hR.refl m) ha) fun a' m' hm' ha' => ?_
      exact ih ha' fun b' hb' a'' m'' hm'' => h b' (List.mem_cons_of_mem b hb') a'' m'' (hR.trans hm' hm'')

end LeadsTo

end Journaling

end RecordMapper

namespace RecordMapper

variable {reg : Registry} {app : Application} {s : Schema} {key : SchemaField} {ctx : Context}
  {plan : ReadPlan}

theorem Application.exists_resolve {f : SchemaField} {nested : Schema}
    (h : app.nested? s f = .ok (some nested)) : ∃ r, f.nested = some r ∧ app.catalog.resolve s r = .ok nested := by
  unfold Application.nested? at h
  split at h
  · cases h
  · rename_i r hr
    obtain ⟨t, ht, h⟩ := Outcome.bind_eq_ok.mp h
    refine ⟨r, hr, ?_⟩
    split at h
    · obtain ⟨_, _, h⟩ := Outcome.bind_eq_ok.mp h
      cases h
      exact ht
    · cases h
      exact ht

theorem Application.nested_eq_none {f : SchemaField} (h : app.nested? s f = .ok none) : f.nested = none := by
  unfold Application.nested? at h
  split at h
  · assumption
  · obtain ⟨_, _, h⟩ := Outcome.bind_eq_ok.mp h
    split at h
    · obtain ⟨_, _, h⟩ := Outcome.bind_eq_ok.mp h
      cases h
    · cases h

/-- What a field looks its related values up with: a nested schema has rows for them. -/
def SchemaField.LooksUp (f : SchemaField) (look : Value → Option Value) : Prop :=
  f.nested.isSome → ∀ pk v, look pk = some v → ∃ row, v = .map row

/-! ## Keys that stay -/

/-- Rows have the given keys if the key is a column, and no plain key if it leads to other rows. -/
def KeysStay (s : Schema) (key : SchemaField) (pks : List Value) (rows : List Record) : Prop :=
  if key.isIsolated then ∀ row ∈ rows, (row.getD s.pkName).isPlain = false
  else rows.map (·.getD s.pkName) = pks

/-- What is collected for an isolated field of a schema; nothing for a key that is one value. -/
structure Collectible (s : Schema) (key : SchemaField) (c : Collecting) : Prop where
  mem : c.field ∈ s.fieldList
  isolated : c.field.isIsolated
  links : c.field = key → key.relatedSingle → c.links = []

theorem yields_collect (hkey : s.KeyField reg key) (hplan : plan.Made s key ctx) (together : Bool)
    {owners : List Value} (hnull : key.isIsolated → key.relatedSingle → ∀ v ∈ owners, v = .null) :
    Job.Yields (fun cs => ∀ c ∈ cs, Collectible s key c) (app.collect together ctx plan owners) := by
  -- A key that leads to one row looks for the owner null.
  have hstart : ∀ f ∈ plan.isolated, ∀ c, Collecting.start app ctx owners f = .ok c →
      c.field ∈ plan.isolated ∧ (c.field = key → key.relatedSingle → c.FindsNothing) := by
    intro f hf c hc
    have hfield := Collecting.field_of_start hc
    refine ⟨hfield ▸ hf, fun hsame hsingle => ?_⟩
    obtain rfl : f = key := hfield.symm.trans hsame
    have hisolated := (hplan.isolated f hf).2
    rcases hkey.kind_cases with ⟨_, _, hkind, _⟩ | ⟨target, link, value, hkind⟩
    · rw [SchemaField.isIsolated, hkind] at hisolated
      cases hisolated
    · exact Collecting.findsNothing_start hkind (hnull hisolated hsingle) hc
  have hadvance : ∀ c : Collecting,
      c.field ∈ plan.isolated ∧ (c.field = key → key.relatedSingle → c.FindsNothing) →
      Job.Yields (fun c => c.field ∈ plan.isolated ∧ (c.field = key → key.relatedSingle → c.FindsNothing))
        (c.advance app ctx) := by
    rintro c ⟨hmem, hnothing⟩
    refine (Collecting.yields_advance c).imp ?_
    rintro c' ⟨hfield, hstill⟩
    exact ⟨hfield ▸ hmem, fun hsame hsingle => hstill (hnothing (hfield ▸ hsame) hsingle)⟩
  have hall : ∀ cs : List Collecting,
      (∀ c ∈ cs, c.field ∈ plan.isolated ∧ (c.field = key → key.relatedSingle → c.FindsNothing)) →
        ∀ c ∈ cs, Collectible s key c := by
    intro cs hcs c hc
    obtain ⟨hmem, hnothing⟩ := hcs c hc
    obtain ⟨hfield, hisolated⟩ := hplan.isolated _ hmem
    exact ⟨hfield, hisolated, fun hsame hsingle => (hnothing hsame hsingle).1⟩
  rw [Application.collect]
  split
  · exact (Collecting.yields_sideBySide hstart hadvance).imp hall
  · exact (Collecting.yields_inTurn hstart hadvance).imp hall

/-- Rows with values put in are the old ones, or old ones with one of the values. -/
theorem mem_assignField {pkName name : String} {values : Keyed Value} {rows : List Record} {row' : Record}
    (h : row' ∈ assignField pkName name values rows) : ∃ row ∈ rows, row' = row ∨
      ∃ e ∈ values, row' = row.insert name e.2 := by
  obtain ⟨row, hrow, hput⟩ := List.mem_map.mp h
  refine ⟨row, hrow, ?_⟩
  split at hput
  · rename_i v hv
    exact .inr ⟨_, mem_of_lookup hv, hput.symm⟩
  · exact .inl hput.symm

theorem map_assignField {pkName name : String} (hne : name ≠ pkName) (values : Keyed Value)
    (rows : List Record) :
    (assignField pkName name values rows).map (·.getD pkName) = rows.map (·.getD pkName) := by
  rw [assignField, List.map_map]
  refine List.map_congr_left fun row _ => ?_
  rw [Function.comp_apply]
  split
  · rw [Record.getD_eq, Record.lookup_insert_ne row (Ne.symm hne), Record.getD_eq]
  · rfl

theorem keysStay_assignField (hkey : s.KeyField reg key) {c : Collecting} (hc : Collectible s key c)
    {pks : List Value} {rows : List Record} (look : Value → Option Value) (hrows : KeysStay s key pks rows) :
    KeysStay s key pks (assignField s.pkName c.field.name (c.field.shape c.links look) rows) := by
  unfold KeysStay at hrows ⊢
  cases hisolated : key.isIsolated with
  | false =>
      rw [hisolated, if_neg (by decide)] at hrows
      have hname : c.field.name ≠ s.pkName := by
        intro hname
        have := hc.isolated
        rw [hkey.only _ hc.mem hname, hisolated] at this
        cases this
      exact (map_assignField hname _ rows).trans hrows
  | true =>
      rw [hisolated, if_pos rfl] at hrows
      intro row' hrow'
      obtain ⟨row, hrow, rfl | ⟨e, he, rfl⟩⟩ := mem_assignField hrow'
      · exact hrows _ hrow
      · by_cases hname : c.field.name = s.pkName
        · -- A key that is a list of rows gets a list; one that is a single row gets nothing.
          have hsame := hkey.only _ hc.mem hname
          obtain ⟨owner, howner, rfl⟩ := List.mem_map.mp he
          rw [hname, Record.getD_eq, Record.lookup_insert_self, Option.getD_some]
          cases hsingle : key.relatedSingle with
          | true =>
              rw [hc.links hsame hsingle] at howner
              cases howner
          | false =>
              rw [hsame, hsingle]
              rfl
        · rw [Record.getD_eq, Record.lookup_insert_ne row (Ne.symm hname), ← Record.getD_eq]
          exact hrows _ hrow

/-! ## Fields of rows -/

namespace Journaling

section Fields

variable {R : Moment → Moment → Prop} {m : Moment}
  {read read' : Schema → Source → Context → Journaling (List Record)}
  (hR : Moment.Composes R)
  (hworld : ∀ m', R m m' → ∀ w, m'.world.Unchanged w → R m' ⟨m'.journal, w⟩)
  (htake : ∀ m', R m m' → ∀ gk pks, R m' ⟨m'.journal.take gk pks, m'.world⟩)
  (hread : ∀ m', R m m' → ∀ f nested, app.nested? s f = .ok (some nested) → ∀ missing,
    (∀ pk ∈ missing, m'.journal.guard.contains ((ctx.derive f.name).guardKey nested.id) pk = false) →
      LeadsTo R (fun _ => True) m' (read nested (.keys missing) (ctx.derive f.name))
        (read' nested (.keys missing) (ctx.derive f.name)))

include hR hworld htake hread

theorem leads_materialize (f : SchemaField) (links : Links) {m' : Moment} (hm : R m m') :
    LeadsTo R (fun values => ∃ look, f.LooksUp look ∧ values = f.shape links look) m'
      (materialize app read s ctx f links) (materialize app read' s ctx f links) := by
  refine .bind hR (Q := fun nested => app.nested? s f = .ok nested) (.ofJob (hworld m' hm)
    (.ofOutcome fun _ h => h)) fun nested m'' hm'' hnested => ?_
  have hm'' := hR.trans hm hm''
  cases nested with
  | none =>
      have hnone := Application.nested_eq_none hnested
      exact .pure hR ⟨_, fun hsome => absurd hsome (by rw [hnone]; decide), rfl⟩
  | some nested =>
      have hrows : ∀ (g : Guard) (gk : GuardKey), f.LooksUp fun pk => (g.get? gk pk).map .map := by
        intro g gk _ pk v hv
        obtain ⟨row, _, rfl⟩ := Option.map_eq_some_iff.mp hv
        exact ⟨row, rfl⟩
      have htaken : ∀ m₁, R m m₁ → ∀ gk : GuardKey,
          LeadsTo R (fun values => ∃ look, f.LooksUp look ∧ values = f.shape links look) m₁
            (do let g ← guard
                record (·.take gk links.related)
                return f.shape links fun pk => (g.get? gk pk).map .map)
            (do let g ← guard
                record (·.take gk links.related)
                return f.shape links fun pk => (g.get? gk pk).map .map) :=
        fun m₁ hm₁ gk => .guard (.bind hR (Q := fun _ => True) (.record (htake m₁ hm₁ gk _) trivial)
          fun _ _ _ _ => .pure hR ⟨_, hrows _ gk, rfl⟩)
      refine .guard ?_
      dsimp only
      split
      · refine .bind hR (hread m'' hm'' f nested hnested _ fun pk hpk => ?_) fun _ m₁ hm₁ _ =>
          htaken m₁ (hR.trans hm'' hm₁) _
        simpa using (List.mem_filter.mp hpk).2
      · exact htaken m'' hm'' _

section Kept

variable {P : List Record → Prop}
  (hput : ∀ c, Collectible s key c → ∀ rows look, c.field.LooksUp look → P rows →
    P (assignField s.pkName c.field.name (c.field.shape c.links look) rows))
include hput

theorem leads_resolveField {c : Collecting} (hc : Collectible s key c) {rows : List Record} (hrows : P rows)
    {m' : Moment} (hm : R m m') :
    LeadsTo R P m' (resolveField app read s ctx rows c) (resolveField app read' s ctx rows c) := by
  refine .bind hR (leads_materialize hR hworld htake hread c.field c.links hm).attempt
    fun outcome m'' _ houtcome => ?_
  cases outcome with
  | ok values =>
      obtain ⟨look, hlook, rfl⟩ := houtcome values rfl
      exact .pure hR (hput c hc rows look hlook hrows)
  | error e =>
      dsimp only
      cases c.field.report? ctx e with
      | some e => exact .throw hR e
      | none => exact .pure hR hrows

/-- Resolving the fields that are collected keeps what nested reads keep, and of the rows what putting in
the values of one field keeps. -/
theorem leads_resolveFields (hkey : s.KeyField reg key) (hplan : plan.Made s key ctx) (together : Bool)
    {owners : List Value} (hnull : key.isIsolated → key.relatedSingle → ∀ v ∈ owners, v = .null)
    {rows : List Record} (hrows : P rows) :
    LeadsTo R P m
      (ofJob (app.collect together ctx plan owners) >>= fun collected =>
        collected.foldlM (resolveField app read s ctx) rows)
      (ofJob (app.collect together ctx plan owners) >>= fun collected =>
        collected.foldlM (resolveField app read' s ctx) rows) := by
  refine .bind hR (.ofJob (hworld m (hR.refl m)) (yields_collect hkey hplan together hnull))
    fun collected m' hm' hcollected => .foldlM hR hrows fun c hc rows m'' hm'' hrows => ?_
  exact leads_resolveField hR hworld htake hread hput (hcollected c hc) hrows (hR.trans hm' hm'')

end Kept

end Fields

end Journaling

end RecordMapper
