import RecordMapper.Proofs.Steps.Twins

/-!
# Nesting — transactions against the log of what they keep

A database undoes a transaction by going back to a whole store that it
laid down when the transaction was opened. What is to remain can also be
told from the calls alone: a statement belongs to the scope it is made
in, a scope that is committed hands its statements to the scope around
it, and one that is rolled back drops them (`nextScopes`). At the end of
a run that closes what it opens one scope is left, which holds the
statements that survive (`survivors?`).

Both tell the same story. At every moment each store of the database is
the one that the statements of the scopes up to it lead to, by
themselves and with the same answers (`Mirrors`).
-/

namespace RecordMapper

/-- A call with the time it was made at and the answer it got. -/
structure Answered where
  now : Instant
  call : Call
  reply : Outcome call.Reply

/-- The call as it was made. -/
def Answered.timed (a : Answered) : Instant × Call := (a.now, a.call)

/-! ## Scopes -/

section Scopes

variable {α β : Type}

/-- The statements of the open scopes after one more call, those of the innermost scope first. There are none where
no scope is open that could be closed. -/
def nextScopes (call : α → Call) (scopes : List (List α)) (a : α) : Option (List (List α)) :=
  match call a, scopes with
  | .begin, scopes => some ([] :: scopes)
  | .commit, inner :: outer :: rest => some ((outer ++ inner) :: rest)
  | .rollback, _ :: outer :: rest => some (outer :: rest)
  | .commit, _ => none
  | .rollback, _ => none
  | _, inner :: rest => some ((inner ++ [a]) :: rest)
  | _, [] => none

/-- The statements that are not inside a scope that is rolled back, in the order they were made. There are none where
the scopes of a run are not closed, or one is closed that is not open. -/
def survivors? (call : α → Call) (run : List α) : Option (List α) :=
  match run.foldlM (nextScopes call) [[]] with
  | some [kept] => some kept
  | _ => none

/-- The statements of open scopes in the order they were made. -/
def logOf (scopes : List (List α)) : List α := scopes.reverse.flatten

@[simp] theorem logOf_cons (scope : List α) (scopes : List (List α)) : logOf (scope :: scopes) = logOf scopes ++ scope := by
  simp [logOf]

theorem survivors?_eq_some {call : α → Call} {run kept : List α} :
    survivors? call run = some kept ↔ run.foldlM (nextScopes call) [[]] = some [kept] := by
  unfold survivors?
  split
  · rename_i h
    simp [h]
  · rename_i hne
    refine ⟨fun h => ?_, fun h => absurd h (hne kept)⟩
    cases h

/-- All that a call does to the scopes. -/
theorem nextScopes_eq_some {call : α → Call} {scopes scopes' : List (List α)} {a : α}
    (h : nextScopes call scopes a = some scopes') :
    (call a = .begin ∧ scopes' = [] :: scopes) ∨
    (call a = .commit ∧ ∃ inner outer rest, scopes = inner :: outer :: rest ∧ scopes' = (outer ++ inner) :: rest) ∨
    (call a = .rollback ∧ ∃ inner outer rest, scopes = inner :: outer :: rest ∧ scopes' = outer :: rest) ∨
    ((call a).IsStatement ∧ ∃ inner rest, scopes = inner :: rest ∧ scopes' = (inner ++ [a]) :: rest) := by
  unfold nextScopes at h
  generalize call a = c at h ⊢
  split at h
  · exact .inl ⟨rfl, (Option.some.inj h).symm⟩
  · exact .inr (.inl ⟨rfl, _, _, _, rfl, (Option.some.inj h).symm⟩)
  · exact .inr (.inr (.inl ⟨rfl, _, _, _, rfl, (Option.some.inj h).symm⟩))
  · cases h
  · cases h
  · refine .inr (.inr (.inr ⟨?_, _, _, rfl, (Option.some.inj h).symm⟩))
    cases c <;> trivial
  · cases h

/-- The statements of the scopes are among the calls that were made, in their order. -/
theorem logOf_sublist {call : α → Call} {run : List α} {scopes scopes' : List (List α)}
    (h : run.foldlM (nextScopes call) scopes = some scopes') : (logOf scopes').Sublist (logOf scopes ++ run) := by
  induction run generalizing scopes with
  | nil =>
      cases h
      simp
  | cons a run ih =>
      obtain ⟨scopes₁, hnext, hrest⟩ := Option.bind_eq_some_iff.mp h
      have hstep : (logOf scopes₁).Sublist (logOf scopes ++ [a]) := by
        rcases nextScopes_eq_some hnext with ⟨_, rfl⟩ | ⟨_, inner, outer, rest, rfl, rfl⟩ |
          ⟨_, inner, outer, rest, rfl, rfl⟩ | ⟨_, inner, rest, rfl, rfl⟩
        · simp
        · simp
        · simp
        · simp
      refine (ih hrest).trans ?_
      simpa using hstep.append_right run

/-- Some scope is open at all times. -/
theorem ne_nil_of_foldlM {call : α → Call} {run : List α} {scopes scopes' : List (List α)}
    (h : run.foldlM (nextScopes call) scopes = some scopes') (hopen : scopes ≠ []) : scopes' ≠ [] := by
  induction run generalizing scopes with
  | nil =>
      cases h
      exact hopen
  | cons a run ih =>
      obtain ⟨scopes₁, hnext, hrest⟩ := Option.bind_eq_some_iff.mp h
      refine ih hrest ?_
      rcases nextScopes_eq_some hnext with ⟨_, rfl⟩ | ⟨_, _, _, _, _, rfl⟩ | ⟨_, _, _, _, _, rfl⟩ |
        ⟨_, _, _, _, rfl⟩ <;> exact List.cons_ne_nil _ _

theorem foldlM_concat {call : α → Call} {run : List α} {a : α} {scopes after : List (List α)} :
    (run ++ [a]).foldlM (nextScopes call) scopes = some after ↔
      ∃ between, run.foldlM (nextScopes call) scopes = some between ∧ nextScopes call between a = some after := by
  rw [List.foldlM_append]
  simp [Option.bind_eq_some_iff]

/-- Where nothing is rolled back, every statement is in a scope. -/
theorem mem_logOf_of_foldlM {call : α → Call} {run : List α} {scopes scopes' : List (List α)}
    (h : run.foldlM (nextScopes call) scopes = some scopes') (hrun : ∀ a ∈ run, call a ≠ .rollback) :
    (∀ a ∈ logOf scopes, a ∈ logOf scopes') ∧ ∀ a ∈ run, (call a).IsStatement → a ∈ logOf scopes' := by
  induction run generalizing scopes with
  | nil =>
      cases h
      exact ⟨fun _ ha => ha, fun a ha => absurd ha List.not_mem_nil⟩
  | cons a run ih =>
      obtain ⟨scopes₁, hnext, hrest⟩ := Option.bind_eq_some_iff.mp h
      obtain ⟨hold, hnew⟩ := ih hrest fun b hb => hrun b (List.mem_cons_of_mem a hb)
      have hstep : (∀ b ∈ logOf scopes, b ∈ logOf scopes₁) ∧ ((call a).IsStatement → a ∈ logOf scopes₁) := by
        rcases nextScopes_eq_some hnext with ⟨hcall, rfl⟩ | ⟨hcall, inner, outer, rest, rfl, rfl⟩ | ⟨hcall, _⟩ |
          ⟨_, inner, rest, rfl, rfl⟩
        · rw [hcall]
          exact ⟨by simp, False.elim⟩
        · rw [hcall]
          exact ⟨by simp, False.elim⟩
        · exact absurd hcall (hrun a List.mem_cons_self)
        · rw [logOf_cons, logOf_cons, ← List.append_assoc]
          exact ⟨fun b hb => List.mem_append_left _ hb, fun _ => List.mem_append_right _ (List.mem_singleton_self a)⟩
      refine ⟨fun b hb => hold b (hstep.1 b hb), fun b hb hstatement => ?_⟩
      rcases List.mem_cons.mp hb with rfl | hb
      · exact hold b (hstep.2 hstatement)
      · exact hnew b hb hstatement

/-- Which calls survive is told by the calls alone. -/
theorem survivors?_map (call : β → Call) (f : α → β) (run : List α) :
    survivors? call (run.map f) = (survivors? (fun a => call (f a)) run).map (List.map f) := by
  have hnext : ∀ (scopes : List (List α)) a, nextScopes call (scopes.map (List.map f)) (f a) =
      (nextScopes (fun a => call (f a)) scopes a).map (List.map (List.map f)) := by
    intro scopes a
    simp only [nextScopes]
    generalize call (f a) = c
    cases c <;> rcases scopes with _ | ⟨inner, _ | ⟨outer, rest⟩⟩ <;> simp
  have hfold : ∀ (run : List α) scopes, (run.map f).foldlM (nextScopes call) (scopes.map (List.map f)) =
      (run.foldlM (nextScopes fun a => call (f a)) scopes).map (List.map (List.map f)) := by
    intro run
    induction run with
    | nil => intro scopes; rfl
    | cons a run ih =>
        intro scopes
        simp only [List.map_cons, List.foldlM_cons, hnext]
        cases nextScopes (fun a => call (f a)) scopes a with
        | none => rfl
        | some scopes' => exact ih scopes'
  have hrun := hfold run [[]]
  unfold survivors?
  rw [List.map_singleton, List.map_nil] at hrun
  rw [hrun]
  rcases run.foldlM (nextScopes fun a => call (f a)) [[]] with _ | ⟨_ | ⟨kept, _ | ⟨outer, rest⟩⟩⟩ <;> rfl

/-! ### What survives, scope by scope -/

/-- A call moves the innermost scopes alone: under them more statements may stand before, and more scopes around. -/
theorem nextScopes_frame {call : α → Call} {scopes after : List (List α)} {first : List α} {a : α}
    (h : nextScopes call (scopes ++ [first]) a = some after) :
    ∃ scopes' first', after = scopes' ++ [first'] ∧ ∀ earlier outer,
      nextScopes call (scopes ++ (earlier ++ first) :: outer) a = some (scopes' ++ (earlier ++ first') :: outer) := by
  unfold nextScopes at h ⊢
  generalize call a = c at h ⊢
  rcases scopes with _ | ⟨inner, _ | ⟨next, rest⟩⟩
  · cases c with
    | begin => exact ⟨[[]], first, (Option.some.inj h).symm, fun _ _ => rfl⟩
    | commit => cases h
    | rollback => cases h
    | _ => exact ⟨[], first ++ [a], (Option.some.inj h).symm, fun _ _ => by simp⟩
  · cases c with
    | begin => exact ⟨[[], inner], first, (Option.some.inj h).symm, fun _ _ => rfl⟩
    | commit => exact ⟨[], first ++ inner, (Option.some.inj h).symm, fun _ _ => by simp⟩
    | rollback => exact ⟨[], first, (Option.some.inj h).symm, fun _ _ => rfl⟩
    | _ => exact ⟨[inner ++ [a]], first, (Option.some.inj h).symm, fun _ _ => rfl⟩
  · cases c with
    | begin => exact ⟨[] :: inner :: next :: rest, first, (Option.some.inj h).symm, fun _ _ => rfl⟩
    | commit => exact ⟨(next ++ inner) :: rest, first, (Option.some.inj h).symm, fun _ _ => rfl⟩
    | rollback => exact ⟨next :: rest, first, (Option.some.inj h).symm, fun _ _ => rfl⟩
    | _ => exact ⟨(inner ++ [a]) :: next :: rest, first, (Option.some.inj h).symm, fun _ _ => rfl⟩

theorem foldlM_nextScopes_frame {call : α → Call} {run : List α} {scopes after : List (List α)} {first : List α}
    (h : run.foldlM (nextScopes call) (scopes ++ [first]) = some after) :
    ∃ scopes' first', after = scopes' ++ [first'] ∧ ∀ earlier outer,
      run.foldlM (nextScopes call) (scopes ++ (earlier ++ first) :: outer) =
        some (scopes' ++ (earlier ++ first') :: outer) := by
  induction run generalizing scopes first with
  | nil => exact ⟨scopes, first, (Option.some.inj h).symm, fun _ _ => rfl⟩
  | cons a run ih =>
      obtain ⟨after₁, hnext, hrest⟩ := Option.bind_eq_some_iff.mp h
      obtain ⟨scopes₁, first₁, rfl, hframe⟩ := nextScopes_frame hnext
      obtain ⟨scopes', first', rfl, hrun⟩ := ih hrest
      refine ⟨scopes', first', rfl, fun earlier outer => ?_⟩
      rw [List.foldlM_cons, hframe earlier outer]
      exact hrun earlier outer

/-- A run that closes what it opens adds its survivors to the scope it is made in. -/
theorem foldlM_of_survivors {call : α → Call} {run kept : List α} (h : survivors? call run = some kept)
    (scope : List α) (outer : List (List α)) :
    run.foldlM (nextScopes call) (scope :: outer) = some ((scope ++ kept) :: outer) := by
  have hrun : run.foldlM (nextScopes call) ([] ++ [[]]) = some [kept] := survivors?_eq_some.mp h
  obtain ⟨scopes', first', hafter, hframe⟩ := foldlM_nextScopes_frame hrun
  obtain ⟨rfl, rfl⟩ : scopes' = [] ∧ first' = kept := by
    cases scopes' with
    | nil => exact ⟨rfl, (List.singleton_inj.mp hafter).symm⟩
    | cons _ _ => simp at hafter
  simpa using hframe scope outer

section Equations

variable {call : α → Call} {inner rest kept keptInner : List α} {a b e : α}

theorem survivors?_statement (ha : (call a).IsStatement) (hrest : survivors? call rest = some kept) :
    survivors? call (a :: rest) = some (a :: kept) := by
  have hnext : nextScopes call [[]] a = some [[a]] := by
    unfold nextScopes
    generalize call a = c at ha
    cases c <;> first | rfl | exact ha.elim
  rw [survivors?_eq_some, List.foldlM_cons, hnext]
  exact foldlM_of_survivors hrest [a] []

/-- Up to its end a scope collects its own survivors. -/
private theorem foldlM_scope (hb : call b = .begin) (hinner : survivors? call inner = some keptInner) :
    (b :: inner ++ e :: rest).foldlM (nextScopes call) [[]] = (e :: rest).foldlM (nextScopes call) [keptInner, []] := by
  have hbegin : nextScopes call [[]] b = some [[], []] := by simp only [nextScopes, hb]
  rw [List.cons_append, List.foldlM_cons, hbegin]
  show (inner ++ e :: rest).foldlM (nextScopes call) [[], []] = _
  rw [List.foldlM_append, foldlM_of_survivors hinner]
  rfl

theorem survivors?_committed (hb : call b = .begin) (hinner : survivors? call inner = some keptInner)
    (he : call e = .commit) (hrest : survivors? call rest = some kept) :
    survivors? call (b :: inner ++ e :: rest) = some (keptInner ++ kept) := by
  have hcommit : nextScopes call [keptInner, []] e = some [keptInner] := by simp only [nextScopes, he, List.nil_append]
  rw [survivors?_eq_some, foldlM_scope hb hinner, List.foldlM_cons, hcommit]
  exact foldlM_of_survivors hrest keptInner []

theorem survivors?_rolledBack (hb : call b = .begin) (hinner : survivors? call inner = some keptInner)
    (he : call e = .rollback) (hrest : survivors? call rest = some kept) :
    survivors? call (b :: inner ++ e :: rest) = some kept := by
  have hrollback : nextScopes call [keptInner, []] e = some [[]] := by simp only [nextScopes, he]
  rw [survivors?_eq_some, foldlM_scope hb hinner, List.foldlM_cons, hrollback]
  exact foldlM_of_survivors hrest [] []

end Equations

theorem survivors?_append {call : α → Call} {run more kept keptMore : List α} (hrun : survivors? call run = some kept)
    (hmore : survivors? call more = some keptMore) : survivors? call (run ++ more) = some (kept ++ keptMore) := by
  rw [survivors?_eq_some, List.foldlM_append, survivors?_eq_some.mp hrun]
  exact foldlM_of_survivors hmore kept []

/-- Where a scope is open within another one, a transaction has been begun, and what was done since then closes what it
opens. -/
theorem exists_opened {call : α → Call} {run inner outer : List α} {rest : List (List α)}
    (h : run.foldlM (nextScopes call) [[]] = some (inner :: outer :: rest)) :
    ∃ front opened inside, run = front ++ opened :: inside ∧ call opened = .begin ∧
      front.foldlM (nextScopes call) [[]] = some (outer :: rest) ∧ survivors? call inside = some inner := by
  induction hn : run.length using Nat.strongRecOn generalizing run inner outer rest with
  | ind n ih =>
    subst hn
    rcases List.eq_nil_or_concat run with rfl | ⟨run, a, rfl⟩
    · cases h
    rw [List.concat_eq_append] at h ih ⊢
    obtain ⟨scopes, hscopes, hnext⟩ := foldlM_concat.mp h
    have hlt : run.length < (run ++ [a]).length := by simp
    have hnone : survivors? call ([] : List α) = some [] := rfl
    rcases nextScopes_eq_some hnext with ⟨hcall, hsame⟩ | ⟨hcall, closed, within, rest', rfl, hsame⟩ |
      ⟨hcall, closed, within, rest', rfl, hsame⟩ | ⟨hcall, before, rest', rfl, hsame⟩
    · cases hsame
      exact ⟨run, a, [], rfl, hcall, hscopes, rfl⟩
    · cases hsame
      obtain ⟨front₁, opened₁, inside₁, rfl, hopened₁, hfront₁, hinside₁⟩ := ih _ hlt hscopes rfl
      obtain ⟨front, opened, inside, rfl, hopened, hfront, hinside⟩ := ih _ (by grind) hfront₁ rfl
      refine ⟨front, opened, inside ++ (opened₁ :: inside₁ ++ [a]), by simp, hopened, hfront, ?_⟩
      have hrest := survivors?_committed hopened₁ hinside₁ hcall hnone
      rw [List.append_nil] at hrest
      exact survivors?_append hinside hrest
    · cases hsame
      obtain ⟨front₁, opened₁, inside₁, rfl, hopened₁, hfront₁, hinside₁⟩ := ih _ hlt hscopes rfl
      obtain ⟨front, opened, inside, rfl, hopened, hfront, hinside⟩ := ih _ (by grind) hfront₁ rfl
      refine ⟨front, opened, inside ++ (opened₁ :: inside₁ ++ [a]), by simp, hopened, hfront, ?_⟩
      have hrest := survivors?_rolledBack hopened₁ hinside₁ hcall hnone
      simpa using survivors?_append hinside hrest
    · cases hsame
      obtain ⟨front, opened, inside, rfl, hopened, hfront, hinside⟩ := ih _ hlt hscopes rfl
      exact ⟨front, opened, inside ++ [a], by simp, hopened, hfront,
        survivors?_append hinside (survivors?_statement hcall hnone)⟩

end Scopes

namespace Database

variable {reg : Registry} {now : Instant} {db before : Database}

/-- A run with its answers. -/
def transcript (reg : Registry) (db : Database) : List (Instant × Call) → List Answered
  | [] => []
  | (now, c) :: calls => ⟨now, c, (db.perform reg now c).1⟩ :: transcript reg (db.perform reg now c).2 calls

theorem timed_transcript (db : Database) (calls : List (Instant × Call)) :
    (db.transcript reg calls).map Answered.timed = calls := by
  induction calls generalizing db with
  | nil => rfl
  | cons c calls ih => exact congrArg (c :: ·) (ih _)

theorem transcript_append (db : Database) (calls more : List (Instant × Call)) :
    db.transcript reg (calls ++ more) = db.transcript reg calls ++ (db.play reg calls).transcript reg more := by
  induction calls generalizing db with
  | nil => rfl
  | cons c calls ih => exact congrArg (_ :: ·) (ih _)

/-! ## Stores against the log -/

/-- A store is the one that statements lead to by themselves, with the answers they got. -/
structure Replays (reg : Registry) (before : Database) (log : List Answered) (st : Store) : Prop where
  statements : ∀ a ∈ log, a.call.IsStatement
  answers : before.transcript reg (log.map Answered.timed) = log
  store : (before.play reg (log.map Answered.timed)).store = st

theorem Replays.statement {log : List Answered} {c : Call} (now : Instant) (hc : c.IsStatement)
    (h : Replays reg before log db.store) :
    Replays reg before (log ++ [⟨now, c, (db.perform reg now c).1⟩]) (db.perform reg now c).2.store := by
  have hsame : ((before.play reg (log.map Answered.timed)).perform reg now c).1 = (db.perform reg now c).1 ∧ _ :=
    perform_congr h.store hc
  obtain ⟨hanswer, hstore⟩ := hsame
  refine ⟨fun a ha => ?_, ?_, ?_⟩
  · rcases List.mem_append.mp ha with ha | ha
    · exact h.statements a ha
    · exact List.mem_singleton.mp ha ▸ hc
  · rw [List.map_append, transcript_append, h.answers]
    exact congrArg (log ++ [⟨now, c, ·⟩]) hanswer
  · rw [List.map_append, play_append]
    exact hstore

/-- The stores of a database are those that the statements of the open scopes lead to. Behind them stand the stores
that were there before. -/
inductive Mirrors (reg : Registry) (before : Database) : List (List Answered) → List Store → Prop where
  | base {log : List Answered} {st : Store} (h : Replays reg before log st) :
    Mirrors reg before [log] (st :: before.savepoints)
  | scope {scope : List Answered} {scopes : List (List Answered)} {st : Store} {stores : List Store}
    (h : Replays reg before (logOf (scope :: scopes)) st) (hscopes : Mirrors reg before scopes stores) :
    Mirrors reg before (scope :: scopes) (st :: stores)

theorem Mirrors.replays {scopes : List (List Answered)} {st : Store} {stores : List Store}
    (h : Mirrors reg before scopes (st :: stores)) : Replays reg before (logOf scopes) st := by
  cases h with
  | base h => simpa [logOf] using h
  | scope h _ => exact h

/-- What is replayed changes in the innermost scope alone. -/
theorem Mirrors.congr {scope scope' : List Answered} {scopes : List (List Answered)} {st st' : Store}
    {stores : List Store} (h : Mirrors reg before (scope :: scopes) (st :: stores))
    (hreplays : Replays reg before (logOf (scope' :: scopes)) st') :
    Mirrors reg before (scope' :: scopes) (st' :: stores) := by
  cases h with
  | base _ => exact .base (by simpa [logOf] using hreplays)
  | scope _ hscopes => exact .scope hreplays hscopes

/-- An inner scope stands on a savepoint, which mirrors the scopes around it. -/
theorem Mirrors.outer {inner outer : List Answered} {rest : List (List Answered)} {st : Store} {stores : List Store}
    (h : Mirrors reg before (inner :: outer :: rest) (st :: stores)) :
    ∃ saved more, stores = saved :: more ∧ Mirrors reg before (outer :: rest) (saved :: more) := by
  cases h with
  | scope _ hscopes =>
      cases stores with
      | nil => cases hscopes
      | cons saved more => exact ⟨saved, more, rfl, hscopes⟩

/-- A call that the scopes go on with keeps them the mirror of the database. -/
theorem Mirrors.next {scopes scopes' : List (List Answered)} {c : Call} (h : Mirrors reg before scopes db.stores)
    (hnext : nextScopes Answered.call scopes ⟨now, c, (db.perform reg now c).1⟩ = some scopes') :
    Mirrors reg before scopes' (db.perform reg now c).2.stores := by
  obtain ⟨st, savepoints, log⟩ := db
  have hreplays := h.replays
  rcases nextScopes_eq_some hnext with ⟨rfl, rfl⟩ | ⟨rfl, inner, outer, rest, rfl, rfl⟩ |
    ⟨rfl, inner, outer, rest, rfl, rfl⟩ | ⟨hc, inner, rest, rfl, rfl⟩
  · refine .scope ?_ h
    rwa [logOf_cons, List.append_nil]
  · -- The store stays, and is now the one of the outer scope.
    obtain ⟨saved, more, rfl, houter⟩ := h.outer
    refine houter.congr ?_
    rwa [logOf_cons, ← List.append_assoc, ← logOf_cons, ← logOf_cons]
  · obtain ⟨saved, more, rfl, houter⟩ := h.outer
    exact houter
  · rw [stores, savepoints_perform hc]
    refine h.congr ?_
    have hstatement := hreplays.statement now hc
    rwa [logOf_cons, List.append_assoc, ← logOf_cons] at hstatement

theorem Mirrors.play {calls : List (Instant × Call)} {scopes scopes' : List (List Answered)}
    (h : Mirrors reg before scopes db.stores)
    (hrun : (db.transcript reg calls).foldlM (nextScopes Answered.call) scopes = some scopes') :
    Mirrors reg before scopes' (db.play reg calls).stores := by
  induction calls generalizing db scopes with
  | nil =>
      cases hrun
      exact h
  | cons c calls ih =>
      obtain ⟨scopes₁, hnext, hrest⟩ := Option.bind_eq_some_iff.mp hrun
      exact ih (h.next hnext) hrest

/-- A run that closes every scope it opens, from any state, does what its surviving statements do by themselves: the
store is the same, each of them gets the answer it got in the run, and no savepoint is left or lost. -/
theorem play_survivors (reg : Registry) (db : Database) {calls kept : List (Instant × Call)}
    (h : survivors? Prod.snd calls = some kept) :
    (db.play reg calls).store = (db.play reg kept).store ∧
    survivors? Answered.call (db.transcript reg calls) = some (db.transcript reg kept) ∧
    (db.play reg calls).savepoints = db.savepoints ∧
    (∀ c ∈ kept, c.2.IsStatement) ∧ kept.Sublist calls := by
  have hmap := survivors?_map Prod.snd Answered.timed (db.transcript reg calls)
  rw [timed_transcript, h] at hmap
  obtain ⟨log, hlog, hkept⟩ := Option.map_eq_some_iff.mp hmap.symm
  have hstart : Mirrors reg db [[]] db.stores := .base ⟨fun a ha => absurd ha List.not_mem_nil, rfl, rfl⟩
  have hend := hstart.play (survivors?_eq_some.mp hlog)
  have hsub := logOf_sublist (survivors?_eq_some.mp h)
  obtain ⟨hstatements, hanswers, hstore⟩ : Replays reg db log (db.play reg calls).store := by
    simpa [logOf] using hend.replays
  rw [hkept] at hanswers hstore
  refine ⟨hstore.symm, hlog.trans (congrArg some hanswers.symm), ?_, fun c hc => ?_, by simpa [logOf] using hsub⟩
  · generalize hst : (db.play reg calls).stores = stores at hend
    cases hend with
    | base _ => exact (List.cons.inj hst).2
    | scope _ hscopes => cases hscopes
  · rw [← hkept] at hc
    obtain ⟨a, ha, rfl⟩ := List.mem_map.mp hc
    exact hstatements a ha

/-- A model whose rows have nothing but a generated key. -/
def ticket : Model := { name := "ticket", parent := none, pkName := "id", own := [.autoKey "id"], reverse := [] }

/-- A ticket, another one in a scope that is rolled back together with the scope in it, and one more, which gets the key
that was given back. -/
def ticketRun : List (Instant × Call) :=
  [.insert ticket [], .begin, .insert ticket [], .begin, .insert ticket [], .commit, .rollback, .insert ticket []].map
    fun c => (⟨0, 0⟩, c)

theorem play_survivors_tickets :
    survivors? Prod.snd ticketRun = some [(⟨0, 0⟩, .insert ticket []), (⟨0, 0⟩, .insert ticket [])] ∧
    ((empty.play ⟨[ticket]⟩ ticketRun).store.keys ticket = [.int 1, .int 2] ∧
      (empty.play ⟨[ticket]⟩ ticketRun).savepoints = []) := by
  have hkept : survivors? Prod.snd ticketRun = some [(⟨0, 0⟩, .insert ticket []), (⟨0, 0⟩, .insert ticket [])] := rfl
  obtain ⟨hstore, _, hsaved, _⟩ := play_survivors ⟨[ticket]⟩ empty hkept
  refine ⟨hkept, ?_, hsaved⟩
  rw [hstore]
  decide

end Database

end RecordMapper
