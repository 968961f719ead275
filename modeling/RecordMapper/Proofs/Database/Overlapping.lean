import RecordMapper.Proofs.Database.Nesting

/-!
# Overlapping — two parties with transactions on one database

Two parties that call one database share its savepoints: a rollback goes
back to the one that was laid down last, whoever did so. Each party sees
scopes of its own, those of the transactions it has opened itself. As
long as both close only what they have opened, the savepoints are as many
as the scopes that the two have open, and each was laid down where one of
them began a transaction (`Moves.savepoints`).

So a party's own rollback undoes what it is meant to undo if the other
party has closed what it has opened meanwhile, and one of the other party
undoes nothing of this one if this one has only looked and begun
meanwhile (`Undisturbed`). Then the rows that a party writes in scopes
that it keeps are as it wrote them (`Moves.shows`).
-/

namespace RecordMapper

/-- One of two parties that call a database in turns. -/
inductive Party
  | first
  | second
  deriving DecidableEq, Repr, Inhabited

namespace Party

def other : Party → Party
  | .first => .second
  | .second => .first

theorem other_ne (a : Party) : a.other ≠ a := by cases a <;> decide

theorem eq_other {a b : Party} (h : a ≠ b) : a = b.other := by
  cases a <;> cases b
  · exact absurd rfl h
  · rfl
  · rfl
  · exact absurd rfl h

end Party

/-- A call that only looks. -/
def Call.IsRead : Call → Prop
  | .fetch .. => True
  | .count _ => True
  | _ => False

/-- A call of one of two parties, with the stores before and after it. -/
structure Move where
  who : Party
  call : Call
  before : Store
  after : Store

namespace Move

/-- A call leaves a row as it is, or leaves it missing. -/
def Spares (x : Move) (m : Model) (pk : Value) : Prop := x.after.row? m pk = x.before.row? m pk

/-- The calls of one party. -/
def madeBy (who : Party) (run : List Move) : List Move := run.filter (·.who = who)

/-- The scopes that one party has open after a run. -/
def scopes? (who : Party) (run : List Move) : Option (List (List Move)) :=
  (madeBy who run).foldlM (nextScopes Move.call) [[]]

variable {who : Party} {run front back inside : List Move} {x : Move}

theorem madeBy_append (who : Party) (run more : List Move) : madeBy who (run ++ more) = madeBy who run ++ madeBy who more :=
  List.filter_append ..

theorem madeBy_cons_self (run : List Move) (h : x.who = who) : madeBy who (x :: run) = x :: madeBy who run :=
  List.filter_cons_of_pos (by simpa using h)

theorem madeBy_cons_ne (run : List Move) (h : x.who ≠ who) : madeBy who (x :: run) = madeBy who run :=
  List.filter_cons_of_neg (by simpa using h)

theorem scopes?_append (who : Party) (run more : List Move) : scopes? who (run ++ more) =
    (scopes? who run).bind fun scopes => (madeBy who more).foldlM (nextScopes Move.call) scopes := by
  rw [scopes?, madeBy_append, List.foldlM_append]
  rfl

/-- Scopes that are open after a run were so, or others, at any earlier time. -/
theorem exists_scopes?_of_append {more : List Move} {after : List (List Move)} (h : scopes? who (run ++ more) = some after) :
    ∃ scopes, scopes? who run = some scopes ∧ (madeBy who more).foldlM (nextScopes Move.call) scopes = some after := by
  rw [scopes?_append] at h
  exact Option.bind_eq_some_iff.mp h

/-- A call moves the scopes of the party that makes it, and leaves those of the other one. -/
theorem exists_scopes?_of_concat {after : List (List Move)} (h : scopes? who (run ++ [x]) = some after) :
    ∃ scopes, scopes? who run = some scopes ∧
      (x.who = who ∧ nextScopes Move.call scopes x = some after ∨ x.who ≠ who ∧ scopes = after) := by
  obtain ⟨scopes, hscopes, hrest⟩ := exists_scopes?_of_append h
  refine ⟨scopes, hscopes, ?_⟩
  by_cases hwho : x.who = who
  · rw [madeBy_cons_self [] hwho] at hrest
    exact .inl ⟨hwho, by simpa [madeBy] using hrest⟩
  · rw [madeBy_cons_ne [] hwho] at hrest
    exact .inr ⟨hwho, Option.some.inj hrest⟩

theorem length_pos_of_scopes? {scopes : List (List Move)} (h : scopes? who run = some scopes) : 0 < scopes.length :=
  List.length_pos_iff.mpr (ne_nil_of_foldlM h (List.cons_ne_nil _ _))

/-- A party that only looks and begins transactions closes no scope, and makes nothing but reads in them. -/
theorem scopes_of_looking {scopes : List (List Move)} (hopen : scopes ≠ [])
    (hrun : ∀ x ∈ run, x.call.IsRead ∨ x.call = .begin) :
    ∃ after reads, run.foldlM (nextScopes Move.call) scopes = some after ∧ logOf after = logOf scopes ++ reads ∧
      ∀ x ∈ reads, x.call.IsRead := by
  induction run generalizing scopes with
  | nil => exact ⟨scopes, [], rfl, by simp, by simp⟩
  | cons x run ih =>
      obtain ⟨inner, rest, rfl⟩ := List.exists_cons_of_ne_nil hopen
      have hrest := fun y hy => hrun y (List.mem_cons_of_mem x hy)
      rcases hrun x List.mem_cons_self with hread | hbegin
      · have hnext : nextScopes Move.call (inner :: rest) x = some ((inner ++ [x]) :: rest) := by
          unfold nextScopes
          generalize x.call = c at hread
          cases c <;> first | rfl | exact hread.elim
        obtain ⟨after, reads, hafter, hlog, hreads⟩ := ih (List.cons_ne_nil (inner ++ [x]) rest) hrest
        refine ⟨after, x :: reads, by rw [List.foldlM_cons, hnext]; exact hafter, by simp [hlog], ?_⟩
        exact List.forall_mem_cons.mpr ⟨hread, hreads⟩
      · have hnext : nextScopes Move.call (inner :: rest) x = some ([] :: inner :: rest) := by
          simp only [nextScopes, hbegin]
        obtain ⟨after, reads, hafter, hlog, hreads⟩ := ih (List.cons_ne_nil [] (inner :: rest)) hrest
        exact ⟨after, reads, by rw [List.foldlM_cons, hnext]; exact hafter, by simpa using hlog, hreads⟩

/-- Where a party has a scope open within another one, it has begun a transaction, and closed since what it has opened
since. -/
theorem exists_opened_of_scopes? {inner outer : List Move} {rest : List (List Move)}
    (h : scopes? who run = some (inner :: outer :: rest)) :
    ∃ front opened inside, run = front ++ opened :: inside ∧ opened.who = who ∧ opened.call = .begin ∧
      scopes? who front = some (outer :: rest) ∧ survivors? Move.call (madeBy who inside) = some inner := by
  obtain ⟨ownFront, opened, ownInside, hown, hbegin, hfront, hinside⟩ := exists_opened h
  obtain ⟨front, back, rfl, rfl, hback⟩ := List.filter_eq_append_iff.mp hown
  obtain ⟨passed, inside, rfl, hpassed, hwho, rfl⟩ := List.filter_eq_cons_iff.mp hback
  have hnone : madeBy who passed = [] := List.filter_eq_nil_iff.mpr hpassed
  refine ⟨front ++ passed, opened, inside, by simp, by simpa using hwho, hbegin, ?_, hinside⟩
  rw [scopes?, madeBy_append, hnone, List.append_nil]
  exact hfront

end Move

open Move

/-! ## Ends of transactions -/

namespace Database

variable {reg : Registry} {now : Instant} {db : Database}

theorem store_perform_commit : (db.perform reg now .commit).2.store = db.store := by
  obtain ⟨st, _ | ⟨saved, rest⟩, log⟩ := db <;> rfl

theorem savepoints_perform_commit : (db.perform reg now .commit).2.savepoints = db.savepoints.tail := by
  obtain ⟨st, _ | ⟨saved, rest⟩, log⟩ := db <;> rfl

theorem savepoints_perform_rollback : (db.perform reg now .rollback).2.savepoints = db.savepoints.tail := by
  obtain ⟨st, _ | ⟨saved, rest⟩, log⟩ := db <;> rfl

theorem store_perform_rollback {saved : Store} {rest : List Store} (h : db.savepoints = saved :: rest) :
    (db.perform reg now .rollback).2.store = saved := by
  obtain ⟨st, savepoints, log⟩ := db
  cases h
  rfl

end Database

/-! ## Runs of two parties -/

/-- What the calls of two parties make of a database, one after another. -/
inductive Moves (reg : Registry) : Database → List Move → Database → Prop
  | nil {db : Database} : Moves reg db [] db
  | cons {db after : Database} {run : List Move} (who : Party) (now : Instant) (c : Call)
    (rest : Moves reg (db.perform reg now c).2 run after) :
    Moves reg db (⟨who, c, db.store, (db.perform reg now c).2.store⟩ :: run) after

namespace Moves

variable {reg : Registry} {db after : Database} {run more : List Move} {x : Move} {who : Party}

theorem exists_between (h : Moves reg db (run ++ more) after) :
    ∃ between, Moves reg db run between ∧ Moves reg between more after := by
  induction run generalizing db with
  | nil => exact ⟨db, .nil, h⟩
  | cons x run ih =>
      cases h with
      | cons who now c rest =>
          obtain ⟨between, hrun, hmore⟩ := ih rest
          exact ⟨between, .cons who now c hrun, hmore⟩

/-- The database before one of the calls. -/
theorem exists_at (h : Moves reg db (run ++ x :: more) after) :
    ∃ between, Moves reg db run between ∧ x.before = between.store := by
  obtain ⟨between, hrun, hmore⟩ := h.exists_between
  cases hmore
  exact ⟨between, hrun, rfl⟩

/-- The last call of a run. -/
theorem exists_last (h : Moves reg db (run ++ [x]) after) :
    ∃ between now, Moves reg db run between ∧ x.before = between.store ∧
      after = (between.perform reg now x.call).2 ∧ x.after = after.store := by
  obtain ⟨between, hrun, hlast⟩ := h.exists_between
  cases hlast with
  | cons who now c rest =>
      cases rest
      exact ⟨between, now, hrun, rfl, rfl, rfl⟩

/-- The savepoints after a call that the scopes go on with. -/
theorem savepoints_next {now : Instant} {scopes scopes' : List (List Move)} {saved base : List Store}
    (hnext : nextScopes Move.call scopes x = some scopes') (hsaved : db.savepoints = saved ++ base)
    (hlength : scopes.length ≤ saved.length + 1) :
    ∃ saved', (db.perform reg now x.call).2.savepoints = saved' ++ base ∧
      saved'.length + scopes.length = saved.length + scopes'.length ∧
      ∀ st ∈ saved', st ∈ saved ∨ x.call = .begin ∧ st = db.store := by
  have hclosed : ∀ inner outer rest, scopes = inner :: outer :: rest →
      ∃ st rest, saved = st :: rest ∧ db.savepoints = st :: (rest ++ base) := by
    rintro inner outer rest rfl
    obtain ⟨st, rest, rfl⟩ := List.exists_cons_of_length_pos (l := saved) (by simp only [List.length_cons] at hlength; omega)
    exact ⟨st, rest, rfl, hsaved⟩
  rcases nextScopes_eq_some hnext with ⟨hcall, rfl⟩ | ⟨hcall, inner, outer, rest, rfl, rfl⟩ |
    ⟨hcall, inner, outer, rest, rfl, rfl⟩ | ⟨hcall, inner, rest, rfl, rfl⟩
  · rw [hcall]
    refine ⟨db.store :: saved, congrArg (db.store :: ·) hsaved, by simp only [List.length_cons]; omega, ?_⟩
    rintro st hst
    rcases List.mem_cons.mp hst with rfl | hst
    · exact .inr ⟨rfl, rfl⟩
    · exact .inl hst
  · obtain ⟨st, saved, rfl, hsaved⟩ := hclosed _ _ _ rfl
    rw [hcall]
    refine ⟨saved, ?_, by simp only [List.length_cons]; omega, fun _ hst => .inl (List.mem_cons_of_mem _ hst)⟩
    rw [Database.savepoints_perform_commit, hsaved]
    rfl
  · obtain ⟨st, saved, rfl, hsaved⟩ := hclosed _ _ _ rfl
    rw [hcall]
    refine ⟨saved, ?_, by simp only [List.length_cons]; omega, fun _ hst => .inl (List.mem_cons_of_mem _ hst)⟩
    rw [Database.savepoints_perform_rollback, hsaved]
    rfl
  · exact ⟨saved, (Database.savepoints_perform hcall).trans hsaved, by simp only [List.length_cons], fun _ hst => .inl hst⟩

/-- There is a savepoint for every scope that one of the parties has opened, on those that were there before; each holds
the store in which one of them began a transaction. -/
theorem savepoints (h : Moves reg db run after) {own other : List (List Move)} (hown : scopes? who run = some own)
    (hother : scopes? who.other run = some other) :
    ∃ saved, after.savepoints = saved ++ db.savepoints ∧ saved.length + 2 = own.length + other.length ∧
      ∀ st ∈ saved, ∃ front opened back, run = front ++ opened :: back ∧ opened.call = .begin ∧ opened.before = st := by
  induction run using List.reverseRecOn generalizing after own other with
  | nil =>
      cases h
      cases hown
      cases hother
      exact ⟨[], rfl, rfl, by simp⟩
  | append_singleton run x ih =>
      obtain ⟨between, now, hrun, hbefore, rfl, -⟩ := h.exists_last
      obtain ⟨own₀, hown₀, hown⟩ := exists_scopes?_of_concat hown
      obtain ⟨other₀, hother₀, hother⟩ := exists_scopes?_of_concat hother
      obtain ⟨saved, hsaved, hlength, hstores⟩ := ih hrun hown₀ hother₀
      have hstep : ∀ {scopes scopes' : List (List Move)}, nextScopes Move.call scopes x = some scopes' →
          scopes.length ≤ saved.length + 1 →
          ∃ saved', (between.perform reg now x.call).2.savepoints = saved' ++ db.savepoints ∧
            saved'.length + scopes.length = saved.length + scopes'.length ∧ ∀ st ∈ saved', ∃ front opened back,
              run ++ [x] = front ++ opened :: back ∧ opened.call = .begin ∧ opened.before = st := by
        intro scopes scopes' hnext hle
        obtain ⟨saved', hsaved', hlength', hstores'⟩ := savepoints_next hnext hsaved hle
        refine ⟨saved', hsaved', hlength', fun st hst => ?_⟩
        rcases hstores' st hst with hold | ⟨hcall, rfl⟩
        · obtain ⟨front, opened, back, rfl, hopened⟩ := hstores st hold
          exact ⟨front, opened, back ++ [x], by simp, hopened⟩
        · exact ⟨run, x, [], rfl, hcall, hbefore⟩
      have hpos := length_pos_of_scopes? hown₀
      have hpos' := length_pos_of_scopes? hother₀
      rcases hown with ⟨hwho, hnext⟩ | ⟨hwho, rfl⟩
      · rcases hother with ⟨hwho', _⟩ | ⟨_, rfl⟩
        · exact absurd (hwho'.symm.trans hwho) who.other_ne
        · obtain ⟨saved', hsaved', hlength', hstores'⟩ := hstep hnext (by omega)
          exact ⟨saved', hsaved', by omega, hstores'⟩
      · rcases hother with ⟨_, hnext⟩ | ⟨hwho', _⟩
        · obtain ⟨saved', hsaved', hlength', hstores'⟩ := hstep hnext (by omega)
          exact ⟨saved', hsaved', by omega, hstores'⟩
        · exact absurd (Party.eq_other hwho) hwho'

end Moves

/-! ## What lasts -/

/-- What is done between the begin and the end of a transaction that one of the parties rolls back. -/
def RolledBack (run : List Move) (who : Party) (inside : List Move) : Prop :=
  ∃ front opened closed back, run = front ++ opened :: inside ++ closed :: back ∧
    (opened.who = who ∧ opened.call = .begin) ∧ (closed.who = who ∧ closed.call = .rollback) ∧
    ∃ kept, survivors? Move.call (madeBy who inside) = some kept

/-- A party that only looks and begins transactions before the other one rolls back does nothing else within what is
rolled back. -/
theorem RolledBack.looks {run inside : List Move} {who : Party} (h : RolledBack run who.other inside)
    (hrun : run.Pairwise fun x closed => x.who = who → closed.who = who.other → closed.call = .rollback →
      x.call.IsRead ∨ x.call = .begin) : ∀ x ∈ inside, x.who = who → x.call.IsRead ∨ x.call = .begin := by
  obtain ⟨front, opened, closed, back, rfl, -, ⟨hwho, hcall⟩, -⟩ := h
  intro x hx hx'
  have hbefore : x ∈ front ++ opened :: inside := List.mem_append_right _ (List.mem_cons_of_mem _ hx)
  exact (List.pairwise_append.mp hrun).2.2 x hbefore closed List.mem_cons_self hx' hwho hcall

/-- No rollback of a run undoes by mistake what a party has done, or leaves by mistake what it has undone. -/
structure Undisturbed (run : List Move) (who : Party) : Prop where
  /-- Within a transaction that the other party rolls back, the party neither writes nor closes a transaction. -/
  looks : ∀ inside, RolledBack run who.other inside → ∀ x ∈ inside, x.who = who → x.call.IsRead ∨ x.call = .begin
  /-- Within a transaction that the party rolls back, the other one closes what it opens, and nothing else. -/
  closes : ∀ inside, RolledBack run who inside → ∃ kept, survivors? Move.call (madeBy who.other inside) = some kept

theorem Undisturbed.of_append {run more : List Move} {who : Party} (h : Undisturbed (run ++ more) who) :
    Undisturbed run who := by
  have hmore : ∀ {who inside}, RolledBack run who inside → RolledBack (run ++ more) who inside := by
    rintro who inside ⟨front, opened, closed, back, rfl, hinside⟩
    exact ⟨front, opened, closed, back ++ more, by simp, hinside⟩
  exact ⟨fun inside hinside => h.looks inside (hmore hinside), fun inside hinside => h.closes inside (hmore hinside)⟩

/-- A store holds a row as the last call in a log left it that did not spare it. -/
def ShowsRow (m : Model) (pk : Value) (log : List Move) (st : Store) : Prop :=
  ∀ earlier x later, log = earlier ++ x :: later → ¬x.call.IsRead → (∀ y ∈ later, y.Spares m pk) →
    st.row? m pk = x.after.row? m pk

namespace ShowsRow

variable {m : Model} {pk : Value} {log : List Move} {st st' : Store} {x : Move}

theorem congr (h : ShowsRow m pk log st) (hsame : st'.row? m pk = st.row? m pk) : ShowsRow m pk log st' :=
  fun earlier x later hlog hwrites hspared => hsame.trans (h earlier x later hlog hwrites hspared)

/-- One more call in the log, which leaves the store. -/
theorem concat (h : ShowsRow m pk log x.before) : ShowsRow m pk (log ++ [x]) x.after := by
  intro earlier y later hlog hwrites hspared
  rcases List.eq_nil_or_concat later with rfl | ⟨later, z, rfl⟩
  · obtain ⟨-, hx⟩ := List.append_inj' hlog rfl
    rw [List.cons.inj hx |>.1]
  · rw [List.concat_eq_append, ← List.cons_append, ← List.append_assoc] at hlog
    obtain ⟨rfl, hx⟩ := List.append_inj' hlog rfl
    obtain rfl := (List.cons.inj hx).1
    have hlast : x.Spares m pk := hspared x (by simp)
    rw [hlast]
    exact h earlier y later rfl hwrites fun w hw => hspared w (by simp [hw])

/-- Reads in the log make no difference. -/
theorem append_reads {reads : List Move} (h : ShowsRow m pk log st) (hreads : ∀ y ∈ reads, y.call.IsRead) :
    ShowsRow m pk (log ++ reads) st := by
  intro earlier y later hlog hwrites hspared
  have hy : y ∉ reads := fun hy => hwrites (hreads y hy)
  rcases List.append_eq_append_iff.mp hlog with ⟨middle, rfl, rfl⟩ | ⟨_ | ⟨z, middle⟩, rfl, hmiddle⟩
  · exact absurd (List.mem_append_right middle List.mem_cons_self) hy
  · rw [List.nil_append] at hmiddle
    exact absurd (hmiddle ▸ List.mem_cons_self) hy
  · obtain ⟨rfl, rfl⟩ := List.cons.inj hmiddle
    exact h earlier y middle rfl hwrites fun w hw => hspared w (List.mem_append_left _ hw)

end ShowsRow

namespace Moves

variable {reg : Registry} {db after : Database} {run : List Move} {who : Party} {m : Model} {pk : Value}

/-- Where a party is about to roll back, and the other one has closed what it has opened since the transaction began, the
last savepoint is the store in which it began. -/
theorem exists_own_savepoint (h : Moves reg db run after) {inner outer : List Move} {rest : List (List Move)}
    (hscopes : scopes? who run = some (inner :: outer :: rest))
    (hcloses : ∀ front opened inside, run = front ++ opened :: inside → opened.who = who → opened.call = .begin →
      (∃ kept, survivors? Move.call (madeBy who inside) = some kept) →
      ∃ kept, survivors? Move.call (madeBy who.other inside) = some kept) :
    ∃ front back between, run = front ++ back ∧ Moves reg db front between ∧
      scopes? who front = some (outer :: rest) ∧ ∃ more, after.savepoints = between.store :: more := by
  obtain ⟨front, opened, inside, rfl, hwho, hbegin, hfront, hkept⟩ := exists_opened_of_scopes? hscopes
  obtain ⟨keptOther, hother⟩ := hcloses front opened inside rfl hwho hbegin ⟨inner, hkept⟩
  obtain ⟨between, hbetween, hrest⟩ := h.exists_between
  refine ⟨front, opened :: inside, between, rfl, hbetween, hfront, ?_⟩
  cases hrest with
  | cons who' now c hinside =>
      obtain rfl : c = .begin := hbegin
      obtain ⟨saved, hsaved, hlength, -⟩ := hinside.savepoints (survivors?_eq_some.mp hkept) (survivors?_eq_some.mp hother)
      obtain rfl : saved = [] := List.eq_nil_of_length_eq_zero (Nat.add_right_cancel hlength)
      exact ⟨_, hsaved⟩

/-- Where a party is about to roll back, and the other one has only looked and begun transactions since the transaction
began, the last savepoint is the store of some time since then. -/
theorem exists_other_savepoint (h : Moves reg db run after) {inner outer : List Move} {rest scopes : List (List Move)}
    (hscopes : scopes? who.other run = some (inner :: outer :: rest)) (hown : scopes? who run = some scopes)
    (hlooks : ∀ front opened inside, run = front ++ opened :: inside → opened.who = who.other → opened.call = .begin →
      (∃ kept, survivors? Move.call (madeBy who.other inside) = some kept) →
      ∀ x ∈ inside, x.who = who → x.call.IsRead ∨ x.call = .begin) :
    ∃ front back between before reads, run = front ++ back ∧ Moves reg db front between ∧
      scopes? who front = some before ∧ logOf scopes = logOf before ++ reads ∧ (∀ x ∈ reads, x.call.IsRead) ∧
      ∃ more, after.savepoints = between.store :: more := by
  obtain ⟨front, opened, inside, rfl, hwho, hbegin, hfront, hkept⟩ := exists_opened_of_scopes? hscopes
  have hlooking : ∀ x ∈ madeBy who inside, x.call.IsRead ∨ x.call = .begin := by
    intro x hx
    obtain ⟨hmem, hx⟩ := List.mem_filter.mp hx
    exact hlooks front opened inside rfl hwho hbegin ⟨inner, hkept⟩ x hmem (by simpa using hx)
  have hne : opened.who ≠ who := fun h => who.other_ne (hwho.symm.trans h)
  obtain ⟨between, hbetween, hrest⟩ := h.exists_between
  -- Since then the party has at least one scope open, and the other one two.
  obtain ⟨ownSince, _, hownSince, -, -⟩ := scopes_of_looking (List.cons_ne_nil [] []) hlooking
  have hownSince : scopes? who (opened :: inside) = some ownSince := by rwa [scopes?, madeBy_cons_ne inside hne]
  have hotherSince : scopes? who.other (opened :: inside) = some [inner, []] := by
    have hnext : nextScopes Move.call [[]] opened = some [[], []] := by simp only [nextScopes, hbegin]
    rw [scopes?, madeBy_cons_self inside hwho, List.foldlM_cons, hnext]
    exact foldlM_of_survivors hkept [] [[]]
  obtain ⟨saved, hsaved, hlength, hstores⟩ := hrest.savepoints hownSince hotherSince
  have hpos := length_pos_of_scopes? hownSince
  obtain ⟨st, saved, rfl⟩ : ∃ st rest, saved = st :: rest :=
    List.exists_cons_of_length_pos (by simp only [List.length_cons, List.length_nil] at hlength; omega)
  obtain ⟨passed, began, back, hsplit, -, rfl⟩ := hstores st List.mem_cons_self
  have hlast : ∀ x ∈ madeBy who (began :: back), x.call.IsRead ∨ x.call = .begin := by
    intro x hx
    refine hlooking x ?_
    rw [← madeBy_cons_ne inside hne, hsplit, madeBy_append]
    exact List.mem_append_right _ hx
  rw [hsplit, ← List.append_assoc] at h hown ⊢
  obtain ⟨present, hpresent, hstore⟩ := h.exists_at
  obtain ⟨before, hbefore, hsince⟩ := exists_scopes?_of_append hown
  obtain ⟨_, reads, hafter, hlog, hreads⟩ :=
    scopes_of_looking (ne_nil_of_foldlM hbefore (List.cons_ne_nil _ _)) hlast
  obtain rfl := Option.some.inj (hsince.symm.trans hafter)
  exact ⟨front ++ passed, began :: back, present, before, reads, rfl, hpresent, hbefore, hlog, hreads, _, hstore ▸ hsaved⟩

/-- After a run in which both parties close only what they have opened, a row that the other party spares is as the
party left it that is not disturbed: in the last call that did not spare the row, of those in scopes not rolled
back. -/
theorem shows (h : Moves reg db run after) (hundisturbed : Undisturbed run who)
    (hspares : ∀ x ∈ run, x.who ≠ who → x.call.IsStatement → x.Spares m pk) {own other : List (List Move)}
    (hown : scopes? who run = some own) (hother : scopes? who.other run = some other) :
    ShowsRow m pk (logOf own) after.store := by
  induction hn : run.length using Nat.strongRecOn generalizing run after own other with
  | ind n ih =>
    subst hn
    rcases List.eq_nil_or_concat run with rfl | ⟨run, x, rfl⟩
    · cases hown
      intro earlier x later hlog
      simp [logOf] at hlog
    rw [List.concat_eq_append] at *
    obtain ⟨own₀, hown₀, hown⟩ := exists_scopes?_of_concat hown
    obtain ⟨other₀, hother₀, hother⟩ := exists_scopes?_of_concat hother
    -- What is known of any earlier time.
    have hearlier : ∀ {front back between before}, run = front ++ back → Moves reg db front between →
        scopes? who front = some before → ShowsRow m pk (logOf before) between.store := by
      rintro front back between before rfl hfront hbefore
      obtain ⟨_, hother₁, -⟩ := exists_scopes?_of_append hother₀
      refine ih _ (by simp) hfront hundisturbed.of_append.of_append (fun x hx => hspares x ?_) hbefore hother₁ rfl
      exact List.mem_append_left _ (List.mem_append_left _ hx)
    obtain ⟨between, now, hrun, hbefore, rfl, hafter⟩ := h.exists_last
    have hpresent : ShowsRow m pk (logOf own₀) between.store := hearlier (List.append_nil run).symm hrun hown₀
    rcases hown with ⟨hwho, hnext⟩ | ⟨hwho, hsame⟩
    · rcases nextScopes_eq_some hnext with ⟨hcall, hopened⟩ | ⟨hcall, inner, outer, rest, rfl, hclosed⟩ |
        ⟨hcall, inner, outer, rest, rfl, hclosed⟩ | ⟨hcall, inner, rest, rfl, hmade⟩
      · rw [hopened, logOf_cons, List.append_nil, hcall]
        exact hpresent
      · rw [hclosed, logOf_cons, ← List.append_assoc, ← logOf_cons, ← logOf_cons, hcall]
        exact hpresent.congr (congrArg (·.row? m pk) Database.store_perform_commit)
      · obtain ⟨front, back, then', rfl, hthen, hfront, more, hsaved⟩ :=
          hrun.exists_own_savepoint hown₀ fun front opened inside hsplit hopened hbegin hkept =>
            hundisturbed.closes inside ⟨front, opened, x, [], by rw [hsplit], ⟨hopened, hbegin⟩, ⟨hwho, hcall⟩, hkept⟩
        rw [hclosed, hcall, Database.store_perform_rollback hsaved]
        exact hearlier rfl hthen hfront
      · rw [hmade, logOf_cons, ← List.append_assoc, ← logOf_cons, ← hafter]
        rw [← hbefore] at hpresent
        exact hpresent.concat
    · have hwho := Party.eq_other hwho
      rcases hother with ⟨-, hnext⟩ | ⟨hne, -⟩
      · rw [hsame] at hpresent hown₀
        rcases nextScopes_eq_some hnext with ⟨hcall, -⟩ | ⟨hcall, -⟩ | ⟨hcall, inner, outer, rest, rfl, -⟩ | ⟨hcall, -⟩
        · rw [hcall]
          exact hpresent
        · rw [hcall]
          exact hpresent.congr (congrArg (·.row? m pk) Database.store_perform_commit)
        · obtain ⟨front, back, then', before, reads, rfl, hthen, hfront, hlog, hreads, more, hsaved⟩ :=
            hrun.exists_other_savepoint hother₀ hown₀ fun front opened inside hsplit hopened hbegin hkept =>
              hundisturbed.looks inside
                ⟨front, opened, x, [], by rw [hsplit], ⟨hopened, hbegin⟩, ⟨hwho, hcall⟩, hkept⟩
          rw [hlog, hcall, Database.store_perform_rollback hsaved]
          exact (hearlier rfl hthen hfront).append_reads hreads
        · have hrow : x.Spares m pk := hspares x (by simp) (hwho ▸ who.other_ne) hcall
          rw [Spares, hafter, hbefore] at hrow
          exact hpresent.congr hrow
      · exact absurd hwho hne

end Moves

end RecordMapper
