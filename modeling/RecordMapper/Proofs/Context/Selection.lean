import RecordMapper.Context
import RecordMapper.Proofs.Scope.Canonical

/-!
# Selections — what a guard key says about the fields of a context

The key of a context is written from its included scope if it has one,
and from its excluded scope otherwise. Contexts of one key therefore
select the same fields as long as an included scope is left, and all
the way down if nothing is included. Where an included scope has run
out, the excluded scopes decide, of which the key of the context above
says nothing: two contexts of one key select the same fields at every
depth exactly if their excluded scopes agree there
(`sameFields_below_iff`).
-/

namespace RecordMapper

namespace Scope

variable {s t : Scope}

/-! ## What equal trees agree on -/

theorem Same.isEmpty_eq (h : s.Same t) : s.isEmpty = t.isEmpty := Option.some.inj (h [])

theorem Same.contains_eq (h : s.Same t) (name : String) : s.contains name = t.contains name := by
  have hchild := h.child? name
  rw [contains, contains]
  generalize s.child? name = below at hchild ⊢
  generalize t.child? name = below' at hchild ⊢
  cases hchild <;> rfl

theorem Same.isLeaf_eq (h : s.Same t) (name : String) : s.isLeaf name = t.isLeaf name := by
  have hchild := h.child? name
  rw [isLeaf, isLeaf]
  generalize s.child? name = below at hchild ⊢
  generalize t.child? name = below' at hchild ⊢
  cases hchild with
  | none => rfl
  | some hsame => exact hsame.isEmpty_eq

theorem Same.at? (h : s.Same t) (path : List String) : Option.Rel Same (s.at? path) (t.at? path) := by
  induction path generalizing s t with
  | nil => exact .some h
  | cons name rest ih =>
      have hchild := h.child? name
      rw [Scope.at?, Scope.at?]
      generalize s.child? name = below at hchild ⊢
      generalize t.child? name = below' at hchild ⊢
      cases hchild with
      | none => exact .none
      | some hsame => exact ih hsame

theorem at?_of_isEmpty (h : s.isEmpty) (name : String) (rest : List String) :
    s.at? (name :: rest) = none := by
  obtain ⟨cs⟩ := s
  obtain rfl := List.isEmpty_iff.mp h
  rfl

/-! ## Trees of paths -/

theorem Clear.child? (h : s.Clear) {name : String} {below : Scope} (hb : s.child? name = some below) :
    below.Clear := by
  obtain ⟨hnd, _, hbelow⟩ := h
  exact hbelow _ ((lookup_eq_some_iff_mem hnd).mp hb)

theorem clear_empty : empty.Clear := .mk List.nodup_nil (by simp) (by simp)

theorem clear_insertNames {names : List String} (hn : ∀ n ∈ names, ∀ c ∈ n.toList, c ∉ scopeMarks)
    (hs : s.Clear) : (insertNames names s).Clear := by
  induction names generalizing s with
  | nil => exact hs
  | cons name rest ih =>
      have hbelow : (insertNames rest ((s.child? name).getD empty)).Clear := by
        refine ih (fun n hmem => hn n (List.mem_cons_of_mem _ hmem)) ?_
        cases hb : s.child? name with
        | none => exact clear_empty
        | some below => exact hs.child? hb
      obtain ⟨hnd, hnames, hclear⟩ := hs
      refine .mk (nodup_keys_insertEntry name _ hnd) (fun e he => ?_) (fun e he => ?_)
      · rcases mem_insertEntry he with rfl | hold
        · exact hn name List.mem_cons_self
        · exact hnames e hold
      · rcases mem_insertEntry he with rfl | hold
        · exact hbelow
        · exact hclear e hold

/-- A tree of paths whose names are free of marks is clear. -/
theorem clear_ofPaths {paths : List String}
    (h : ∀ path ∈ paths, ∀ n ∈ pathNames path, ∀ c ∈ n.toList, c ∉ scopeMarks) :
    (ofPaths paths).Clear :=
  List.foldlRecOn paths _ clear_empty fun _ hs path hpath => clear_insertNames (h path hpath) hs

end Scope

namespace Context

variable {c c' : Context}

/-- The context below some fields, each nested in the one before. -/
def below (c : Context) (path : List String) : Context := path.foldl derive c

/-- The scopes of a context name nothing twice and have no marks in their names. -/
def Clear (c : Context) : Prop := (∀ s ∈ c.includes, s.Clear) ∧ ∀ s ∈ c.excludes, s.Clear

/-- Two contexts select the same fields. -/
def SameFields (c c' : Context) : Prop := ∀ name key, c.inScope name key = c'.inScope name key

/-- Whether the excluded scope of a context takes a field away. -/
def leavesOut (c : Context) (name : String) : Bool := c.excludes.any (·.isLeaf name)

theorem inScope_eq (c : Context) (name : String) (key : Bool) :
    c.inScope name key = (key || match given? c.includes with
      | some s => s.contains name
      | none => !c.leavesOut name) := by
  rw [inScope, leavesOut]
  cases key with
  | true => rfl
  | false =>
      cases given? c.includes with
      | some s => rfl
      | none => cases c.excludes <;> rfl

/-! ## Going down -/

theorem given?_of_isEmpty {s : Scope} (h : s.isEmpty) : given? (some s) = none := by
  rw [given?, Option.filter_some, h]
  rfl

theorem given?_of_names {s : Scope} (h : s.isEmpty = false) : given? (some s) = some s := by
  rw [given?, Option.filter_some, h]
  rfl

/-- Nothing is given below nothing. -/
theorem given?_bind_at? (o : Option Scope) (path : List String) :
    given? ((given? o).bind (·.at? path)) = given? (o.bind (·.at? path)) := by
  cases o with
  | none => rfl
  | some s =>
      cases he : s.isEmpty with
      | false => rw [given?_of_names he]
      | true =>
          rw [given?_of_isEmpty he, Option.bind_none, Option.bind_some]
          cases path with
          | nil => rw [Scope.at?, given?_of_isEmpty he]; rfl
          | cons name rest => rw [Scope.at?_of_isEmpty he]

theorem any_isLeaf_given? (o : Option Scope) (name : String) :
    (given? o).any (·.isLeaf name) = o.any (·.isLeaf name) := by
  cases o with
  | none => rfl
  | some s =>
      cases he : s.isEmpty with
      | false => rw [given?_of_names he]
      | true =>
          rw [given?_of_isEmpty he]
          obtain ⟨cs⟩ := s
          obtain rfl := List.isEmpty_iff.mp he
          rfl

theorem given?_includes_below (c : Context) (path : List String) :
    given? (c.below path).includes = given? (c.includes.bind (·.at? path)) := by
  induction path generalizing c with
  | nil => simp [below, Scope.at?]
  | cons name rest ih =>
      rw [below, List.foldl_cons, ← below, ih, derive, given?_bind_at?, Option.bind_assoc]
      rfl

theorem given?_excludes_below (c : Context) (path : List String) :
    given? (c.below path).excludes = given? (c.excludes.bind (·.at? path)) := by
  induction path generalizing c with
  | nil => simp [below, Scope.at?]
  | cons name rest ih =>
      rw [below, List.foldl_cons, ← below, ih, derive, given?_bind_at?, Option.bind_assoc]
      rfl

theorem leavesOut_below (c : Context) (path : List String) (name : String) :
    (c.below path).leavesOut name = ((given? c.excludes).bind (·.at? path)).any (·.isLeaf name) := by
  rw [leavesOut, ← any_isLeaf_given?, given?_excludes_below, ← given?_bind_at?, any_isLeaf_given?]

theorem Clear.derive (h : c.Clear) (field : String) : (c.derive field).Clear := by
  have hnarrow : ∀ (o : Option Scope), (∀ s ∈ o, s.Clear) →
      ∀ s ∈ given? (o.bind (·.child? field)), s.Clear := by
    intro o ho s hs
    obtain ⟨hs, _⟩ := Option.filter_eq_some_iff.mp hs
    obtain ⟨above, habove, hchild⟩ := Option.bind_eq_some_iff.mp hs
    exact (ho above habove).child? hchild
  exact ⟨hnarrow _ h.1, hnarrow _ h.2⟩

/-! ## Reading the key -/

/-- What a context adds to its key for the expressions it forces. -/
def forcedText (c : Context) : String :=
  if c.forced.isEmpty then "" else "*(" ++ ",".intercalate (sortedNames c.forced) ++ ")"

/-- What a context adds to its key for its scopes. -/
def scopeText (included excluded : Option Scope) : String :=
  match included with
  | some s => "+(" ++ s.canonical ++ ")"
  | none =>
    match excluded with
    | some s => "-(" ++ s.canonical ++ ")"
    | none => ""

theorem selectionText_eq (c : Context) :
    c.selectionText = scopeText (given? c.includes) (given? c.excludes) ++ c.forcedText := rfl

theorem clear_of_given? {o : Option Scope} {s : Scope} (ho : ∀ s ∈ o, s.Clear) (h : given? o = some s) :
    s.Clear ∧ s.isEmpty = false := by
  obtain ⟨hs, hempty⟩ := Option.filter_eq_some_iff.mp h
  exact ⟨ho s hs, by simpa using hempty⟩

/-- One text between two marks belongs to one tree. -/
theorem same_of_marked {o o' : Option Scope} {s t : Scope} (ho : ∀ s ∈ o, s.Clear)
    (ho' : ∀ s ∈ o', s.Clear) (hs : given? o = some s) (ht : given? o' = some t) {us vs : List Char}
    (h : s.canonical.toList ++ ')' :: us = t.canonical.toList ++ ')' :: vs) : s.Same t := by
  obtain ⟨hsc, hse⟩ := clear_of_given? ho hs
  obtain ⟨htc, hte⟩ := clear_of_given? ho' ht
  have hclose : ∀ xs, Scope.Closes (')' :: xs) := by
    intro xs c hc
    cases hc
    exact List.mem_cons_self
  exact Scope.same_of_canonical_eq hsc htc hse hte (hclose us) (hclose vs) h

/-- What begins a key that names no included scope. -/
theorem head_scopeText (excluded : Option Scope) (c : Context) :
    ∀ x ∈ ((scopeText none excluded).toList ++ c.forcedText.toList).head?,
      x = if excluded.isSome then '-' else '*' := by
  intro x hx
  cases excluded with
  | some s =>
      rw [scopeText, String.toList_append, String.toList_append] at hx
      exact (Option.some.inj hx).symm
  | none =>
      rw [scopeText, forcedText] at hx
      split at hx
      · cases hx
      · rw [String.toList_append, String.toList_append] at hx
        exact (Option.some.inj hx).symm

theorem head_scopeText_excludes (s : Scope) (us : List Char) :
    '-' ∈ ((scopeText none (some s)).toList ++ us).head? := by
  rw [scopeText, String.toList_append, String.toList_append, List.append_assoc, List.append_assoc]
  exact rfl

theorem scopeText_includes_ne {s : Scope} {excluded excluded' : Option Scope} {us : List Char}
    (h : (scopeText (some s) excluded).toList ++ us =
      (scopeText none excluded').toList ++ c.forcedText.toList) : False := by
  have hhead := head_scopeText excluded' c '+'
  rw [← h, scopeText, String.toList_append, String.toList_append] at hhead
  have := hhead rfl
  split at this <;> cases this

/-- Contexts of one key include the same, or they include nothing and exclude the same. -/
theorem scopes_same_of_guardKey_eq (hc : c.Clear) (hc' : c'.Clear) {schema : Nat}
    (h : c.guardKey schema = c'.guardKey schema) :
    (∃ s t, given? c.includes = some s ∧ given? c'.includes = some t ∧ s.Same t) ∨
      given? c.includes = none ∧ given? c'.includes = none ∧
        Option.Rel Scope.Same (given? c.excludes) (given? c'.excludes) := by
  have htext : (scopeText (given? c.includes) (given? c.excludes)).toList ++ c.forcedText.toList =
      (scopeText (given? c'.includes) (given? c'.excludes)).toList ++ c'.forcedText.toList := by
    rw [← String.toList_append, ← String.toList_append, ← selectionText_eq, ← selectionText_eq]
    exact congrArg (String.toList ∘ GuardKey.scope) h
  cases hi : given? c.includes with
  | some s =>
      cases hi' : given? c'.includes with
      | some t =>
          rw [hi, hi', scopeText, scopeText] at htext
          simp only [String.toList_append, List.append_assoc] at htext
          exact .inl ⟨s, t, rfl, rfl,
            same_of_marked hc.1 hc'.1 hi hi' (List.cons.inj (List.cons.inj htext).2).2⟩
      | none =>
          rw [hi, hi'] at htext
          exact (scopeText_includes_ne htext).elim
  | none =>
      cases hi' : given? c'.includes with
      | some t =>
          rw [hi, hi'] at htext
          exact (scopeText_includes_ne htext.symm).elim
      | none =>
          refine .inr ⟨rfl, rfl, ?_⟩
          rw [hi, hi'] at htext
          -- A key that excludes something begins with another mark than one that does not.
          have hhead := head_scopeText (given? c.excludes) c
          have hhead' := head_scopeText (given? c'.excludes) c'
          cases he : given? c.excludes with
          | some s =>
              cases he' : given? c'.excludes with
              | some t =>
                  rw [he, he', scopeText, scopeText] at htext
                  simp only [String.toList_append, List.append_assoc] at htext
                  exact .some (same_of_marked hc.2 hc'.2 he he' (List.cons.inj (List.cons.inj htext).2).2)
              | none =>
                  have hx := hhead' '-' (by rw [← htext, he]; exact head_scopeText_excludes s _)
                  rw [he'] at hx
                  cases hx
          | none =>
              cases he' : given? c'.excludes with
              | some t =>
                  have hx := hhead '-' (by rw [htext, he']; exact head_scopeText_excludes t _)
                  rw [he] at hx
                  cases hx
              | none => exact .none

/-! ## Selecting at every depth -/

/-- Same trees, seen from the given scopes of contexts below. -/
theorem given?_at?_same {s t : Scope} (h : s.Same t) (path : List String) :
    Option.Rel Scope.Same (given? (s.at? path)) (given? (t.at? path)) := by
  have hat := h.at? path
  generalize s.at? path = below at hat ⊢
  generalize t.at? path = below' at hat ⊢
  cases hat with
  | none => exact .none
  | @some u v hsame =>
      rw [given?, given?, Option.filter_some, Option.filter_some, hsame.isEmpty_eq]
      split
      · exact .some hsame
      · exact .none

/-- At every depth below contexts of one key, the included scopes are the same or have both run out. -/
theorem includes_below_same (hc : c.Clear) (hc' : c'.Clear) {schema : Nat}
    (h : c.guardKey schema = c'.guardKey schema) (path : List String) :
    Option.Rel Scope.Same (given? (c.below path).includes) (given? (c'.below path).includes) := by
  rw [given?_includes_below, given?_includes_below, ← given?_bind_at?, ← given?_bind_at? c'.includes]
  rcases scopes_same_of_guardKey_eq hc hc' h with ⟨s, t, hs, ht, hsame⟩ | ⟨hs, ht, _⟩
  · rw [hs, ht]
    exact given?_at?_same hsame path
  · rw [hs, ht]
    exact .none

/-- Below contexts of one key that include nothing, the same is left out at every depth. -/
theorem leavesOut_below_eq (hc : c.Clear) (hc' : c'.Clear) {schema : Nat}
    (h : c.guardKey schema = c'.guardKey schema) (hnone : given? c.includes = none)
    (path : List String) (name : String) :
    (c.below path).leavesOut name = (c'.below path).leavesOut name := by
  rw [leavesOut_below, leavesOut_below]
  rcases scopes_same_of_guardKey_eq hc hc' h with ⟨s, t, hs, _, _⟩ | ⟨_, _, hexcluded⟩
  · rw [hs] at hnone
    cases hnone
  · generalize given? c.excludes = o at hexcluded ⊢
    generalize given? c'.excludes = o' at hexcluded ⊢
    cases hexcluded with
    | none => rfl
    | @some s t hsame =>
        have hat := hsame.at? path
        rw [Option.bind_some, Option.bind_some]
        generalize s.at? path = u at hat ⊢
        generalize t.at? path = u' at hat ⊢
        cases hat with
        | none => rfl
        | some hsame => exact hsame.isLeaf_eq name

theorem sameFields_of_includes (h : Option.Rel Scope.Same (given? c.includes) (given? c'.includes))
    (hsome : given? c.includes ≠ none) : c.SameFields c' := by
  intro name key
  rw [inScope_eq, inScope_eq]
  generalize given? c.includes = o at h hsome ⊢
  generalize given? c'.includes = o' at h ⊢
  cases h with
  | none => exact absurd rfl hsome
  | some hsame => exact congrArg (key || ·) (hsame.contains_eq name)

theorem sameFields_iff_leavesOut (h : Option.Rel Scope.Same (given? c.includes) (given? c'.includes))
    (hnone : given? c.includes = none) :
    c.SameFields c' ↔ ∀ name, c.leavesOut name = c'.leavesOut name := by
  have hnone' : given? c'.includes = none := by
    rw [hnone] at h
    generalize given? c'.includes = o at h
    cases h
    rfl
  constructor
  · intro hsame name
    have := hsame name false
    rw [inScope_eq, inScope_eq, hnone, hnone'] at this
    simpa using this
  · intro hleft name key
    rw [inScope_eq, inScope_eq, hnone, hnone', hleft]

/-- Contexts of one key. Where an included scope is left they select the same fields; if nothing is
included they do so at every depth; and they do so at every depth exactly if they exclude the same wherever
no included scope is left. -/
theorem sameFields_below_iff (hc : c.Clear) (hc' : c'.Clear) {schema : Nat}
    (h : c.guardKey schema = c'.guardKey schema) :
    (∀ path, given? (c.below path).includes ≠ none → (c.below path).SameFields (c'.below path)) ∧
    (given? c.includes = none → ∀ path, (c.below path).SameFields (c'.below path)) ∧
    ((∀ path, (c.below path).SameFields (c'.below path)) ↔
      ∀ path, given? (c.below path).includes = none →
        ∀ name, (c.below path).leavesOut name = (c'.below path).leavesOut name) := by
  have hrel := includes_below_same hc hc' h
  have hincluded : ∀ path, given? (c.below path).includes ≠ none →
      (c.below path).SameFields (c'.below path) := fun path => sameFields_of_includes (hrel path)
  have hdepths : (∀ path, (c.below path).SameFields (c'.below path)) ↔
      ∀ path, given? (c.below path).includes = none →
        ∀ name, (c.below path).leavesOut name = (c'.below path).leavesOut name := by
    constructor
    · intro hall path hnone
      exact (sameFields_iff_leavesOut (hrel path) hnone).mp (hall path)
    · intro hout path
      by_cases hnone : given? (c.below path).includes = none
      · exact (sameFields_iff_leavesOut (hrel path) hnone).mpr (hout path hnone)
      · exact hincluded path hnone
  refine ⟨hincluded, fun hnone => hdepths.mpr fun path _ => ?_, hdepths⟩
  exact leavesOut_below_eq hc hc' h hnone path

/-! ## A key that hides what is excluded -/

/-- Two writers of a book: of the books of the first, the titles are left out. -/
def writers : Context :=
  { includes := some (.ofPaths ["first.books", "second.books"])
    excludes := some (.ofPaths ["first.books.title"]) }

theorem writers_clear : writers.Clear := by
  have hnone : ∀ path ∈ ["first.books", "second.books", "first.books.title"],
      ∀ n ∈ Scope.pathNames path, n.toList.all (fun c => !scopeMarks.contains c) := by decide
  have hmarks : ∀ path ∈ ["first.books", "second.books", "first.books.title"],
      ∀ n ∈ Scope.pathNames path, ∀ c ∈ n.toList, c ∉ scopeMarks := by
    intro path hpath n hn c hc
    simpa using List.all_eq_true.mp (hnone path hpath n hn) c hc
  constructor
  · rintro s ⟨⟩
    exact Scope.clear_ofPaths fun path hpath => hmarks path (List.mem_append_left _ hpath)
  · rintro s ⟨⟩
    exact Scope.clear_ofPaths fun path hpath =>
      hmarks path (List.mem_append_right ["first.books", "second.books"] hpath)

/-- What the two writers are read with differs below their books only. -/
theorem sameFields_below_writers :
    (writers.derive "first").SameFields (writers.derive "second") ∧
      ¬ ∀ path, given? ((writers.derive "first").below path).includes = none →
        ∀ name, ((writers.derive "first").below path).leavesOut name =
          ((writers.derive "second").below path).leavesOut name := by
  have hkeys : (writers.derive "first").guardKey 1 = (writers.derive "second").guardKey 1 := rfl
  obtain ⟨hincluded, _, hdepths⟩ := sameFields_below_iff (writers_clear.derive "first")
    (writers_clear.derive "second") hkeys
  refine ⟨hincluded [] (by decide), fun hout => ?_⟩
  have htitle := hdepths.mpr hout ["books"] "title" false
  exact absurd htitle (by decide)

/-- The selections below the two writers have one key, but the titles of books are in the second alone. -/
theorem guardKey_hides_excludes : writers.Clear ∧
    (writers.derive "first").guardKey 1 = (writers.derive "second").guardKey 1 ∧
    ((writers.derive "first").below ["books"]).inScope "title" false = false ∧
    ((writers.derive "second").below ["books"]).inScope "title" false = true :=
  ⟨writers_clear, rfl, by decide, by decide⟩

end Context

end RecordMapper
