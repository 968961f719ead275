import RecordMapper.Proofs.Read.Agreement
import RecordMapper.Proofs.Read.SideBySide
import RecordMapper.Proofs.Read.Leftovers
import RecordMapper.Proofs.Read.Strict

/-!
# Failing — reads that keep account of the fields that fail

An isolated field can fail in two parts: while its links are found, and
while the rows behind them are put in. A read that keeps account takes
down each such failure, in nested calls too, before the context decides
whether it is reported or passed over. The account is compared with a
strict read: as long as nothing is taken down the strict read does the
same, and once something is taken down it fails (`Accounts`).
-/

namespace RecordMapper

/-! ## Accounts -/

/-- The parts in which an isolated field is resolved. -/
inductive FieldPart
  /-- Its links are found. -/
  | links
  /-- The rows that the links lead to are put in. -/
  | rows
  deriving DecidableEq, Repr

/-- The failure of a part of a field, before it is reported or passed over. -/
structure FieldFailure where
  /-- The fields that lead to the call, outermost first. -/
  call : List String
  field : String
  part : FieldPart
  cause : Failure
  deriving Repr

/-- The failures of a part of a field that has come to some outcome. -/
def FieldFailure.of {α : Type} (call : List String) (f : SchemaField) (p : FieldPart) :
    Outcome α → List FieldFailure
  | .ok _ => []
  | .error e => [⟨call, f.name, p, e⟩]

/-- What becomes of a part of a field: a failure is reported unless the field passes over it. -/
def SchemaField.recover {α : Type} (f : SchemaField) (ctx : Context) : Outcome α → Outcome (Option α)
  | .ok a => .ok (some a)
  | .error e =>
    match f.report? ctx e with
    | some e => .error e
    | none => .ok none

/-- A guard with the failures of fields so far. -/
structure FailureAccount where
  guard : Guard
  failures : List FieldFailure
  deriving Repr

/-- Computations of a read that keeps account of failures. -/
abbrev Accounting := ExceptT Failure (StateT FailureAccount Steps)

namespace Accounting

variable {α β : Type}

/-- A job as part of a read. -/
def ofJob (j : Job α) : Accounting α := ExceptT.mk fun account => j.run.bind fun r => .done (r, account)

/-- A known result as part of a read. -/
def ofOutcome (r : Outcome α) : Accounting α := ofJob (Job.ofOutcome r)

/-- The guard of the account. -/
def guard : Accounting Guard := ExceptT.mk fun account => .done (.ok account.guard, account)

/-- Changes the guard of the account. -/
def record (change : Guard → Guard) : Accounting Unit :=
  ExceptT.mk fun account => .done (.ok (), { account with guard := change account.guard })

/-- Takes failures down. -/
def note (failures : List FieldFailure) : Accounting Unit :=
  ExceptT.mk fun account => .done (.ok (), { account with failures := account.failures ++ failures })

/-- The outcome of a part, whether it succeeds or not. -/
def attempt (r : Accounting α) : Accounting (Outcome α) :=
  ExceptT.mk fun account => (r.run account).bind fun (outcome, account) => .done (.ok outcome, account)

/-- A part of a field. Its failure is taken down before the context decides what becomes of it. -/
def part (ctx : Context) (call : List String) (f : SchemaField) (p : FieldPart) (r : Accounting α) :
    Accounting (Option α) := do
  let outcome ← attempt r
  note (FieldFailure.of call f p outcome)
  ofOutcome (f.recover ctx outcome)

/-- A field with its links; one that passes over its failure has none. -/
def collect (app : Application) (ctx : Context) (call : List String) (owners : List Value) (f : SchemaField) :
    Accounting Collecting := do
  let links ← part ctx call f .links (ofJob (app.findLinks ctx owners f))
  return ⟨f, [], links.getD []⟩

/-- The values of an isolated field, given its links. `read` reads nested schemas. -/
def materialize (app : Application) (read : Schema → Source → Context → Accounting (List Record))
    (s : Schema) (ctx : Context) (f : SchemaField) (links : Links) : Accounting (Keyed Value) := do
  match ← ofOutcome (app.nested? s f) with
  | none => return f.shape links some
  | some nested =>
    let below := ctx.derive f.name
    let key := below.guardKey nested.id
    let missing := (← guard).unresolved key links.related
    if !missing.isEmpty then
      let _ ← read nested (.keys missing) below
    let g ← guard
    return f.shape links fun pk => (g.get? key pk).map .map

/-- The rows with the values of one isolated field put in. -/
def resolveField (app : Application) (call : List String)
    (read : Schema → Source → Context → Accounting (List Record)) (s : Schema) (ctx : Context)
    (rows : List Record) (c : Collecting) : Accounting (List Record) := do
  match ← part ctx call c.field .rows (materialize app read s ctx c.field c.links) with
  | some values => return assignField s.pkName c.field.name values rows
  | none => return rows

/-- The rows of a source, at most so many levels of nested schemas deep. -/
def rowsWithin (app : Application) : Nat → List String → Schema → Source → Context → Accounting (List Record)
  | 0, _, _, _, _ => return []
  | levels + 1, call, s, src, ctx => do
    match ← ofJob (app.prepare s src ctx) with
    | none => return []
    | some (plan, rows) =>
      let key := ctx.guardKey s.id
      record (·.registerMissing key (rows.map fun row => (row.getD s.pkName, plan.finish row)))
      let collected ← plan.isolated.mapM (collect app ctx call (rows.map (·.getD s.pkName)))
      let resolve rows (c : Collecting) :=
        resolveField app call (rowsWithin app levels (call ++ [c.field.name])) s ctx rows c
      let rows ← collected.foldlM resolve rows
      let finished := rows.map plan.finish
      record (·.register key (finished.map fun row => (row.getD s.pkName, row)))
      return finished

end Accounting

/-! ## Parts of fields -/

namespace Reading

variable {α β : Type} {app : Application} {ctx : Context}

/-- A part of a field. -/
def part (ctx : Context) (f : SchemaField) (r : Reading α) : Reading (Option α) := do
  ofOutcome (f.recover ctx (← attempt r))

theorem run_part (ctx : Context) (f : SchemaField) (r : Reading α) (w : World) (g : Guard) :
    w.run ((part ctx f r).run.run g) =
      ((f.recover ctx (w.run (r.run.run g)).1.1, (w.run (r.run.run g)).1.2), (w.run (r.run.run g)).2) := by
  rw [part, World.run_state_bind, run_attempt]
  rfl

theorem ofJob_attempt (j : Job α) : ofJob (Job.attempt j) = attempt (ofJob j) := by
  refine ext fun g => ?_
  show (j.run.bind _).bind _ = (j.run.bind _).bind _
  rw [Steps.bind_bind, Steps.bind_bind]
  rfl

theorem ofJob_collect (owners : List Value) (f : SchemaField) :
    ofJob (Collecting.collect app ctx owners f) = part ctx f (ofJob (app.findLinks ctx owners f)) >>= fun links =>
      pure ⟨f, [], links.getD []⟩ := by
  rw [Collecting.collect_eq_findLinks, ofJob_bind, ofJob_attempt, part, bind_assoc]
  refine congrArg (attempt (ofJob (app.findLinks ctx owners f)) >>= ·) (funext fun found => ?_)
  cases found with
  | ok links => rfl
  | error e =>
      rw [Collecting.settled, Outcome.map_error, Collecting.recovered, SchemaField.recover]
      cases f.report? ctx e <;> rfl

theorem ofJob_mapM {γ : Type} (j : γ → Job α) (l : List γ) :
    (ofJob (l.mapM j) : Reading (List α)) = l.mapM fun c => ofJob (j c) := by
  induction l with
  | nil => rfl
  | cons c rest ih =>
      simp only [List.mapM_cons, ofJob_bind, ih]
      rfl

theorem resolveField_eq_part {read : Schema → Source → Context → Reading (List Record)} (s : Schema)
    (rows : List Record) (c : Collecting) : resolveField app read s ctx rows c =
      part ctx c.field (materialize app read s ctx c.field c.links) >>= fun values =>
        match values with
        | some values => pure (assignField s.pkName c.field.name values rows)
        | none => pure rows := by
  rw [resolveField, part, bind_assoc]
  refine congrArg (attempt _ >>= ·) (funext fun outcome => ?_)
  cases outcome with
  | ok values => rfl
  | error e =>
      rw [SchemaField.recover]
      dsimp only
      cases c.field.report? ctx e <;> rfl

end Reading

/-! ## What the account says -/

namespace Accounting

variable {α β : Type}

theorem run_part {n : Accounting α} {w w' : World} {account account' : FailureAccount} {outcome : Outcome α}
    (h : w.run (n.run.run account) = ((outcome, account'), w')) (ctx : Context) (call : List String)
    (f : SchemaField) (p : FieldPart) : w.run ((part ctx call f p n).run.run account) =
      ((f.recover ctx outcome,
        { account' with failures := account'.failures ++ FieldFailure.of call f p outcome }), w') := by
  have hattempt : w.run ((attempt n).run.run account) = ((.ok outcome, account'), w') := by
    have hbind : w.run ((attempt n).run.run account) = _ := World.run_bind (n.run.run account) _ w
    rw [hbind, h]
    rfl
  rw [part, World.run_state_bind_ok hattempt]
  rfl

/-- A read that keeps account does what a read does; a strict one does the same if nothing is taken down, and
fails if anything is. -/
def Accounts (n : Accounting α) (r strict : Reading α) : Prop :=
  ∀ (w : World) (account : FailureAccount),
    let ran := w.run (n.run.run account)
    w.run (r.run.run account.guard) = ((ran.1.1, ran.1.2.guard), ran.2) ∧
      ∃ new, ran.1.2.failures = account.failures ++ new ∧
        (new = [] → w.run (strict.run.run account.guard) = ((ran.1.1, ran.1.2.guard), ran.2)) ∧
        (new ≠ [] → ∃ e, (w.run (strict.run.run account.guard)).1.1 = .error e)

namespace Accounts

/-- Nothing is taken down where no field can fail. -/
theorem silent {n : Accounting α} {r : Reading α} (h : ∀ (w : World) (account : FailureAccount),
      w.run (r.run.run account.guard) =
          (((w.run (n.run.run account)).1.1, (w.run (n.run.run account)).1.2.guard), (w.run (n.run.run account)).2) ∧
        (w.run (n.run.run account)).1.2.failures = account.failures) : Accounts n r r := by
  intro w account
  obtain ⟨hsame, hnothing⟩ := h w account
  refine ⟨hsame, [], ?_, fun _ => hsame, fun h => absurd rfl h⟩
  rw [hnothing, List.append_nil]

theorem pure (a : α) : Accounts (Pure.pure a) (Pure.pure a) (Pure.pure a) := silent fun _ _ => ⟨rfl, rfl⟩

theorem ofJob (j : Job α) : Accounts (Accounting.ofJob j) (Reading.ofJob j) (Reading.ofJob j) := by
  refine silent fun w account => ?_
  have hrun : ∀ {σ : Type} (st : σ), w.run (j.run.bind fun r => .done (r, st)) = (((w.run j.run).1, st), (w.run j.run).2) :=
    fun st => World.run_bind j.run _ w
  have haccount : w.run ((Accounting.ofJob j).run.run account) = _ := hrun account
  rw [haccount, Reading.run_ofJob, hrun]
  exact ⟨rfl, rfl⟩

theorem guard : Accounts Accounting.guard Reading.guard Reading.guard := silent fun _ _ => ⟨rfl, rfl⟩

theorem record (change : Guard → Guard) :
    Accounts (Accounting.record change) (Reading.record change) (Reading.record change) :=
  silent fun _ _ => ⟨rfl, rfl⟩

theorem bind {n : Accounting α} {r strict : Reading α} {kn : α → Accounting β} {kr ks : α → Reading β}
    (h : Accounts n r strict) (hk : ∀ a, Accounts (kn a) (kr a) (ks a)) :
    Accounts (n >>= kn) (r >>= kr) (strict >>= ks) := by
  intro w account
  obtain ⟨hsame, new, hnew, hnothing, hfails⟩ := h w account
  have hfails : new ≠ [] → ∃ e, (w.run ((strict >>= ks).run.run account.guard)).1.1 = .error e := by
    intro hne
    obtain ⟨e, he⟩ := hfails hne
    exact ⟨e, by rw [World.run_state_bind_error he]⟩
  rcases hran : w.run (n.run.run account) with ⟨⟨outcome, account'⟩, w'⟩
  rw [hran] at hsame hnew hnothing
  cases outcome with
  | error e =>
      rw [World.run_state_bind_error (by rw [hran]), hran, World.run_state_bind_error (by rw [hsame]), hsame]
      refine ⟨rfl, new, hnew, fun hnil => ?_, hfails⟩
      rw [World.run_state_bind_error (by rw [hnothing hnil]), hnothing hnil]
  | ok a =>
      rw [World.run_state_bind_ok hran, World.run_state_bind_ok hsame]
      obtain ⟨hsame', new', hnew', hnothing', hfails'⟩ := hk a w' account'
      refine ⟨hsame', new ++ new', ?_, fun hnil => ?_, fun hne => ?_⟩
      · rw [hnew', hnew, List.append_assoc]
      · obtain ⟨hnil, hnil'⟩ := List.append_eq_nil_iff.mp hnil
        rw [World.run_state_bind_ok (hnothing hnil)]
        exact hnothing' hnil'
      · by_cases hnil : new = []
        · rw [World.run_state_bind_ok (hnothing hnil)]
          exact hfails' fun hnil' => hne (by rw [hnil, hnil', List.append_nil])
        · exact hfails hnil

theorem ite {c : Prop} [Decidable c] {n n' : Accounting α} {r r' strict strict' : Reading α}
    (h : Accounts n r strict) (h' : Accounts n' r' strict') :
    Accounts (if c then n else n') (if c then r else r') (if c then strict else strict') := by
  split
  · exact h
  · exact h'

theorem foldlM {fn : β → α → Accounting β} {fr fs : β → α → Reading β}
    (h : ∀ b a, Accounts (fn b a) (fr b a) (fs b a)) (l : List α) (b : β) :
    Accounts (l.foldlM fn b) (l.foldlM fr b) (l.foldlM fs b) := by
  induction l generalizing b with
  | nil => exact pure b
  | cons a rest ih =>
      simp only [List.foldlM_cons]
      exact bind (h b a) ih

theorem mapM {fn : α → Accounting β} {fr fs : α → Reading β} (h : ∀ a, Accounts (fn a) (fr a) (fs a))
    (l : List α) : Accounts (l.mapM fn) (l.mapM fr) (l.mapM fs) := by
  induction l with
  | nil => exact pure []
  | cons a rest ih =>
      simp only [List.mapM_cons]
      exact bind (h a) fun _ => bind ih fun _ => pure _

/-- The failure of a part is taken down, and a strict read reports it. -/
theorem part {n : Accounting α} {r strict : Reading α} (h : Accounts n r strict) (ctx : Context) (raises : Bool)
    (call : List String) (f : SchemaField) (p : FieldPart) :
    Accounts (Accounting.part (ctx.raising raises) call f p n) (Reading.part (ctx.raising raises) f r)
      (Reading.part (ctx.raising true) f strict) := by
  intro w account
  obtain ⟨hsame, new, hnew, hnothing, hfails⟩ := h w account
  rcases hran : w.run (n.run.run account) with ⟨⟨outcome, account'⟩, w'⟩
  rw [hran] at hsame hnew hnothing
  rw [run_part hran, Reading.run_part, Reading.run_part, hsame]
  refine ⟨rfl, new ++ FieldFailure.of call f p outcome, ?_, fun hnil => ?_, fun hne => ?_⟩
  · show account'.failures ++ _ = _
    rw [hnew, List.append_assoc]
  · obtain ⟨hnil, hok⟩ := List.append_eq_nil_iff.mp hnil
    rw [hnothing hnil]
    cases outcome with
    | ok a => rfl
    | error e => cases hok
  · have hfailed : ∃ e, (w.run (strict.run.run account.guard)).1.1 = .error e := by
      by_cases hnil : new = []
      · rw [hnothing hnil]
        cases outcome with
        | ok a => exact absurd (List.append_eq_nil_iff.mpr ⟨hnil, rfl⟩) hne
        | error e => exact ⟨e, rfl⟩
      · exact hfails hnil
    obtain ⟨e, he⟩ := hfailed
    rw [he, SchemaField.recover, f.report_strict]
    exact ⟨_, rfl⟩

end Accounts

section Fields

variable {app : Application} {ctx : Context} {raises : Bool} {call : List String}
  {n : Schema → Source → Context → Accounting (List Record)}
  {r strict : Schema → Source → Context → Reading (List Record)}

theorem accounts_collect (owners : List Value) (f : SchemaField) :
    Accounts (collect app (ctx.raising raises) call owners f)
      (Reading.ofJob (Collecting.collect app (ctx.raising raises) owners f))
      (Reading.ofJob (Collecting.collect app (ctx.raising true) owners f)) := by
  rw [Reading.ofJob_collect, Reading.ofJob_collect]
  exact .bind (.part (.ofJob _) ctx raises call f .links) fun _ => .pure _

theorem accounts_collectAll (plan : ReadPlan) (owners : List Value) :
    Accounts (plan.isolated.mapM (collect app (ctx.raising raises) call owners))
      (Reading.ofJob (app.collect false (ctx.raising raises) plan owners))
      (Reading.ofJob (app.collect false (ctx.raising true) plan owners)) := by
  have hturns : ∀ ctx, app.collect false ctx plan owners =
      plan.isolated.mapM (Collecting.collect app ctx owners) := fun _ => rfl
  rw [hturns, hturns, Reading.ofJob_mapM, Reading.ofJob_mapM]
  exact .mapM (accounts_collect owners) _

variable (hread : ∀ s src (ctx : Context), Accounts (n s src (ctx.raising raises)) (r s src (ctx.raising raises))
  (strict s src (ctx.raising true)))
include hread

theorem accounts_materialize (s : Schema) (f : SchemaField) (links : Links) :
    Accounts (materialize app n s (ctx.raising raises) f links)
      (Reading.materialize app r s (ctx.raising raises) f links)
      (Reading.materialize app strict s (ctx.raising true) f links) := by
  refine .bind (.ofJob _) fun nested => ?_
  cases nested with
  | none => exact .pure _
  | some nested =>
      refine .bind .guard fun g => ?_
      exact .ite (.bind (hread nested _ (ctx.derive f.name)) fun _ => .bind .guard fun _ => .pure _)
        (.bind .guard fun _ => .pure _)

theorem accounts_resolveField (s : Schema) (rows : List Record) (c : Collecting) :
    Accounts (resolveField app call n s (ctx.raising raises) rows c)
      (Reading.resolveField app r s (ctx.raising raises) rows c)
      (Reading.resolveField app strict s (ctx.raising true) rows c) := by
  rw [Reading.resolveField_eq_part, Reading.resolveField_eq_part]
  refine .bind (.part (accounts_materialize hread s c.field c.links) ctx raises call c.field .rows) fun values => ?_
  cases values with
  | none => exact .pure _
  | some values => exact .pure _

end Fields

theorem accounts_rowsWithin (app : Application) (levels : Nat) (call : List String) (s : Schema) (src : Source)
    (ctx : Context) (raises : Bool) :
    Accounts (rowsWithin app levels call s src (ctx.raising raises))
      (Reading.rowsWithin app false levels s src (ctx.raising raises))
      (Reading.rowsWithin app false levels s src (ctx.raising true)) := by
  induction levels generalizing call s src ctx with
  | zero => exact .pure []
  | succ levels ih =>
      rw [Reading.rowsWithin_succ, Reading.rowsWithin_succ]
      refine .bind (.ofJob _) fun prepared => ?_
      cases prepared with
      | none => exact .pure []
      | some p =>
          obtain ⟨plan, rows⟩ := p
          refine .bind (.record _) fun _ => .bind (accounts_collectAll plan _) fun collected => ?_
          refine .bind (.foldlM (fun rows c => ?_) collected rows) fun _ => .bind (.record _) fun _ => .pure _
          exact accounts_resolveField (ih (call ++ [c.field.name])) s rows c

end Accounting

/-! ## Strict and lenient reads -/

namespace World

/-- Reads the rows of a source as `readRows` does, one field after another, and keeps account of failures. -/
def readAccounting (w : World) (cat : Catalog) (s : Schema) (src : Source) (ctx : Context) (g : Guard) :
    (Outcome (List Record) × FailureAccount) × World :=
  w.run ((Accounting.rowsWithin (w.application cat) (w.levels cat ctx) [] s src ctx).run.run ⟨g, []⟩)

/-- A strict read that succeeds sends the statements that a lenient one sends, yields its rows and leaves its
guard. An account is that of a read; as soon as it has a failure of a field, found in whatever call and
whether it is passed over or not, the strict read fails, and without any it is the same read. -/
theorem strict_readRows (w : World) (cat : Catalog) (together : Bool) (s : Schema) (src : Source) (ctx : Context)
    (g : Guard) :
    (∀ rows, (w.readRows cat together s src (ctx.raising true) g).1.1 = .ok rows →
      w.readRows cat together s src (ctx.raising false) g = w.readRows cat together s src (ctx.raising true) g) ∧
    ∀ raises, let account := w.readAccounting cat s src (ctx.raising raises) g
      w.readRows cat false s src (ctx.raising raises) g = ((account.1.1, account.1.2.guard), account.2) ∧
      (w.Still → account.1.2.failures ≠ [] →
        ∃ e, (w.readRows cat together s src (ctx.raising true) g).1.1 = .error e) ∧
      (account.1.2.failures = [] →
        w.readRows cat false s src (ctx.raising true) g = ((account.1.1, account.1.2.guard), account.2)) := by
  refine ⟨fun rows h => Reading.shared_rowsWithin _ together _ s src ctx false w g rows h, fun raises => ?_⟩
  obtain ⟨hsame, new, hnew, hnothing, hfails⟩ :=
    Accounting.accounts_rowsWithin (w.application cat) (w.levels cat ctx) [] s src ctx raises w ⟨g, []⟩
  have hnew : (w.readAccounting cat s src (ctx.raising raises) g).1.2.failures = new := hnew
  refine ⟨hsame, fun hw hne => ?_, fun hnil => hnothing (hnew ▸ hnil)⟩
  obtain ⟨e, he⟩ : ∃ e, (w.readRows cat false s src (ctx.raising true) g).1.1 = .error e := hfails (hnew ▸ hne)
  cases together with
  | false => exact ⟨e, he⟩
  | true =>
      -- Side by side the fields fail as they do one after another.
      have hvalue := (sameAnswer_readRows hw cat s src (ctx.raising true) g).outcome.value
      rw [he] at hvalue
      generalize (w.readRows cat true s src (ctx.raising true) g).1.1 = outcome at hvalue ⊢
      cases outcome with
      | ok rows => cases hvalue
      | error e' => exact ⟨e', rfl⟩

open Journal.Reached (oneBook authorSchema catalog)

/-- Two friends are read alike by a strict and a lenient read. The author whose books have no tags is read by a
lenient one alone: the tags fail within the silent field first, and then the field itself. -/
theorem strict_readRows_friends_and_book :
    ((∃ rows, (twoFriends.readRows {} true personSchema (.key (.int 1)) (Context.raising {} true) .empty).1.1 =
        .ok rows) ∧
      twoFriends.readRows {} true personSchema (.key (.int 1)) (Context.raising {} false) .empty =
        twoFriends.readRows {} true personSchema (.key (.int 1)) (Context.raising {} true) .empty) ∧
    oneBook.Still ∧
    (oneBook.readAccounting catalog authorSchema (.key (.int 1)) (Context.raising {} false) .empty).1.2.failures.map
        (fun e => (e.call, e.field, e.part)) = [(["quiet"], "tags", .links), ([], "quiet", .rows)] ∧
    ∃ e, (oneBook.readRows catalog true authorSchema (.key (.int 1)) (Context.raising {} true) .empty).1.1 =
      .error e := by
  have hfriends : (twoFriends.readRows {} true personSchema (.key (.int 1)) (Context.raising {} true)
      .empty).1.1.toOption.isSome := by decide +kernel
  obtain ⟨rows, hrows⟩ := Option.isSome_iff_exists.mp hfriends
  have hrows := Outcome.toOption_eq_some.mp hrows
  have hstill : oneBook.Still := rfl
  have hfailures : (oneBook.readAccounting catalog authorSchema (.key (.int 1)) (Context.raising {} false)
      .empty).1.2.failures.map (fun e => (e.call, e.field, e.part)) =
        [(["quiet"], "tags", .links), ([], "quiet", .rows)] := by decide +kernel
  refine ⟨⟨⟨rows, hrows⟩, (strict_readRows twoFriends {} true personSchema (.key (.int 1)) {} .empty).1 rows hrows⟩,
    hstill, hfailures, ?_⟩
  refine ((strict_readRows oneBook catalog true authorSchema (.key (.int 1)) {} .empty).2 false).2.1 hstill fun hnil => ?_
  have hnone := hfailures.symm.trans (congrArg (List.map fun e : FieldFailure => (e.call, e.field, e.part)) hnil)
  cases hnone

end World

end RecordMapper
