import RecordMapper.Proofs.Context.Selection

/-!
# Dotted scopes — what lists of dotted paths mean at every depth

The scope of some dotted paths has the names that begin one of the paths,
and nothing is below the names of a path that no other path goes on
from. Walking down the fields, each in the context below the one before,
an included scope keeps what lies on the way to the end of a path or
behind it (`selects_of_included`), and an excluded scope keeps what no
end of a path comes before (`selects_of_excluded`).
-/

namespace RecordMapper

namespace Scope

variable {s : Scope} {name : String} {names rest : List String}

/-! ## The names of a scope -/

/-- Names lead to a scope with nothing in it. -/
def EndsAt (s : Scope) (names : List String) : Prop := ∃ below, s.at? names = some below ∧ below.isEmpty

theorem at?_append (s : Scope) (names more : List String) :
    s.at? (names ++ more) = (s.at? names).bind (·.at? more) := by
  induction names generalizing s with
  | nil => rfl
  | cons name rest ih =>
      rw [List.cons_append, at?, at?, Option.bind_assoc]
      exact Option.bind_congr fun below _ => ih below

/-- Nothing is in a scope just if no name leads anywhere. -/
theorem isEmpty_iff_at? : s.isEmpty ↔ ∀ name, s.at? [name] = none := by
  constructor
  · intro hempty name
    exact at?_of_isEmpty hempty name []
  · intro hnone
    obtain ⟨cs⟩ := s
    cases cs with
    | nil => rfl
    | cons e cs =>
        have hchild : child? (.mk (e :: cs)) e.1 = some e.2 := List.lookup_cons_self
        have hfirst := hnone e.1
        rw [at?, hchild] at hfirst
        cases hfirst

theorem endsAt_iff : s.EndsAt names ↔ (s.at? names).isSome ∧ ∀ name, s.at? (names ++ [name]) = none := by
  constructor
  · rintro ⟨below, hbelow, hempty⟩
    rw [hbelow]
    refine ⟨rfl, fun name => ?_⟩
    rw [at?_append, hbelow]
    exact isEmpty_iff_at?.mp hempty name
  · rintro ⟨hsome, hnone⟩
    obtain ⟨below, hbelow⟩ := Option.isSome_iff_exists.mp hsome
    refine ⟨below, hbelow, isEmpty_iff_at?.mpr fun name => ?_⟩
    have hname := hnone name
    rwa [at?_append, hbelow] at hname

/-- Putting a path in adds the names that begin it. -/
theorem isSome_at?_insertNames {path : List String} :
    ((insertNames names s).at? path).isSome ↔ path <+: names ∨ (s.at? path).isSome := by
  induction names generalizing s path with
  | nil =>
      rw [insertNames, List.prefix_nil]
      refine ⟨.inr, fun h => h.elim (fun hnil => ?_) id⟩
      rw [hnil]
      rfl
  | cons name rest ih =>
      cases path with
      | nil => exact iff_of_true rfl (.inl (List.nil_prefix))
      | cons first more =>
          rw [insertNames, at?, at?, child?, children]
          by_cases hfirst : first = name
          · subst hfirst
            rw [lookup_insertEntry_self, Option.bind_some, ih, List.cons_prefix_cons]
            cases s.child? first with
            | some below => simp
            | none =>
                -- Of a name that is new nothing was given below it.
                have hnew : (empty.at? more).isSome → more <+: rest := by
                  cases more with
                  | nil => exact fun _ => List.nil_prefix
                  | cons next _ => exact fun h => by cases h
                simpa using hnew
          · rw [lookup_insertEntry_ne _ hfirst, List.cons_prefix_cons]
            exact ⟨.inr, fun h => h.elim (fun hsame => absurd hsame.1 hfirst) id⟩

/-- A path of some dotted paths from which no other one goes on. -/
def Deepest (paths : List String) (path : String) : Prop :=
  path ∈ paths ∧ ∀ other ∈ paths, pathNames path <+: pathNames other → pathNames other = pathNames path

instance (paths : List String) (path : String) : Decidable (Deepest paths path) :=
  inferInstanceAs (Decidable (_ ∧ _))

variable {paths : List String}

theorem isSome_at?_ofPaths : ((ofPaths paths).at? names).isSome ↔
    names = [] ∨ ∃ path ∈ paths, names <+: pathNames path := by
  have hfold : ∀ s : Scope, ((paths.foldl (fun s path => insertNames (pathNames path) s) s).at? names).isSome ↔
      (s.at? names).isSome ∨ ∃ path ∈ paths, names <+: pathNames path := by
    induction paths with
    | nil => simp
    | cons path paths ih =>
        intro s
        rw [List.foldl_cons, ih, isSome_at?_insertNames]
        simp only [List.mem_cons, exists_eq_or_imp]
        tauto
  rw [ofPaths, hfold]
  refine or_congr_left ?_
  cases names with
  | nil => exact iff_of_true rfl rfl
  | cons name rest => exact iff_of_false (fun h => by cases h) (List.cons_ne_nil name rest)

/-- Where some path has a name, a scope ends at the paths from which no other one goes on. -/
theorem endsAt_ofPaths (hnamed : ∃ path ∈ paths, pathNames path ≠ []) :
    (ofPaths paths).EndsAt names ↔ ∃ path, Deepest paths path ∧ pathNames path = names := by
  have hover : (∀ name, (ofPaths paths).at? (names ++ [name]) = none) ↔
      ∀ other ∈ paths, names <+: pathNames other → pathNames other = names := by
    simp only [← Option.not_isSome_iff_eq_none, isSome_at?_ofPaths, not_or, not_exists, not_and]
    constructor
    · rintro hnone other hother ⟨more, hmore⟩
      cases more with
      | nil => rw [← hmore, List.append_nil]
      | cons name more =>
          refine absurd ⟨more, ?_⟩ ((hnone name).2 other hother)
          rw [List.append_assoc, ← hmore]
          rfl
    · intro hall name
      refine ⟨by simp, fun other hother hlonger => ?_⟩
      have hsame := hall other hother ((List.prefix_append names [name]).trans hlonger)
      rw [hsame] at hlonger
      have hlength := hlonger.length_le
      rw [List.length_append, List.length_singleton] at hlength
      omega
  rw [endsAt_iff, hover, isSome_at?_ofPaths]
  constructor
  · rintro ⟨hgiven, hall⟩
    have hbegun : ∃ path ∈ paths, names <+: pathNames path := by
      rcases hgiven with rfl | hbegun
      · obtain ⟨path, hpath, _⟩ := hnamed
        exact ⟨path, hpath, List.nil_prefix⟩
      · exact hbegun
    obtain ⟨path, hpath, hprefix⟩ := hbegun
    obtain rfl := hall path hpath hprefix
    exact ⟨path, ⟨hpath, hall⟩, rfl⟩
  · rintro ⟨path, ⟨hpath, hall⟩, rfl⟩
    exact ⟨.inr ⟨path, hpath, List.prefix_refl _⟩, hall⟩

/-! ## One level down -/

/-- A scope ends on the way to some names. -/
def EndsOn (s : Scope) (names : List String) : Prop := ∃ before, before <+: names ∧ s.EndsAt before

theorem endsOn_of_isEmpty (h : s.isEmpty) (names : List String) : s.EndsOn names :=
  ⟨[], List.nil_prefix, s, rfl, h⟩

theorem not_endsOn_nil (h : s.isEmpty = false) : ¬ s.EndsOn [] := by
  rintro ⟨before, hbefore, below, hbelow, hempty⟩
  obtain rfl := List.prefix_nil.mp hbefore
  cases hbelow
  rw [h] at hempty
  cases hempty

/-- A scope with names ends on the way where the scope below the first name does. -/
theorem endsOn_cons (h : s.isEmpty = false) :
    s.EndsOn (name :: rest) ↔ ∃ below, s.child? name = some below ∧ below.EndsOn rest := by
  constructor
  · rintro ⟨before, hbefore, hends⟩
    cases before with
    | nil => exact absurd ⟨[], List.nil_prefix, hends⟩ (not_endsOn_nil h)
    | cons first more =>
        obtain ⟨rfl, hmore⟩ := List.cons_prefix_cons.mp hbefore
        obtain ⟨last, hlast, hempty⟩ := hends
        obtain ⟨below, hbelow, hlast⟩ := Option.bind_eq_some_iff.mp hlast
        exact ⟨below, hbelow, more, hmore, last, hlast, hempty⟩
  · rintro ⟨below, hbelow, more, hmore, last, hlast, hempty⟩
    refine ⟨name :: more, List.cons_prefix_cons.mpr ⟨rfl, hmore⟩, last, ?_, hempty⟩
    rw [at?, hbelow]
    exact hlast

end Scope

namespace Context

variable {c : Context} {s : Scope}

/-- Whether fields take part, each in the context below the one before; none of them is a primary key. -/
def selects (c : Context) : List String → Bool
  | [] => true
  | name :: rest => c.inScope name false && (c.derive name).selects rest

theorem selects_of_open (hincludes : given? c.includes = none) (hexcludes : given? c.excludes = none)
    (fields : List String) : c.selects fields := by
  induction fields generalizing c with
  | nil => rfl
  | cons name rest ih =>
      have hin : c.inScope name false := by
        rw [inScope_eq, hincludes, leavesOut, ← any_isLeaf_given?, hexcludes]
        rfl
      have hincludes' := given?_includes_below c [name]
      have hexcludes' := given?_excludes_below c [name]
      rw [← given?_bind_at?, hincludes] at hincludes'
      rw [← given?_bind_at?, hexcludes] at hexcludes'
      rw [selects, hin, Bool.true_and]
      exact ih hincludes' hexcludes'

/-- An included scope keeps the fields on the way to one of its ends and those behind one. -/
theorem selects_of_included (hincludes : c.includes = some s) (hnames : s.isEmpty = false)
    (hexcludes : c.excludes = none) (fields : List String) :
    c.selects fields ↔ (s.at? fields).isSome ∨ s.EndsOn fields := by
  induction fields generalizing c s with
  | nil => exact iff_of_true rfl (.inl rfl)
  | cons name rest ih =>
      have hin : c.inScope name false = (s.child? name).isSome := by
        rw [inScope_eq, hincludes, given?_of_names hnames]
        rfl
      have hexcludes' : (c.derive name).excludes = none := by rw [derive, hexcludes]; rfl
      have hincludes' : (c.derive name).includes = given? (s.child? name) := by rw [derive, hincludes]; rfl
      rw [selects, hin, Scope.endsOn_cons hnames, Scope.at?]
      cases hchild : s.child? name with
      | none => simp
      | some below =>
          rw [hchild] at hincludes'
          simp only [Option.isSome_some, Bool.true_and, Option.bind_some, Option.some.injEq, exists_eq_left']
          by_cases hempty : below.isEmpty
          · rw [given?_of_isEmpty hempty] at hincludes'
            have hopen := selects_of_open (c := c.derive name) (by rw [hincludes']; rfl) (by rw [hexcludes']; rfl) rest
            exact iff_of_true hopen (.inr (Scope.endsOn_of_isEmpty hempty rest))
          · rw [Bool.not_eq_true] at hempty
            rw [given?_of_names hempty] at hincludes'
            exact ih hincludes' hempty hexcludes'

/-- An excluded scope keeps the fields that are not behind one of its ends. -/
theorem selects_of_excluded (hincludes : c.includes = none) (hexcludes : c.excludes = some s)
    (hnames : s.isEmpty = false) (fields : List String) : c.selects fields ↔ ¬ s.EndsOn fields := by
  induction fields generalizing c s with
  | nil => exact iff_of_true rfl (Scope.not_endsOn_nil hnames)
  | cons name rest ih =>
      have hin : c.inScope name false = !s.isLeaf name := by
        rw [inScope_eq, hincludes, leavesOut, hexcludes]
        rfl
      have hincludes' : (c.derive name).includes = none := by rw [derive, hincludes]; rfl
      have hexcludes' : (c.derive name).excludes = given? (s.child? name) := by rw [derive, hexcludes]; rfl
      rw [selects, hin, Scope.endsOn_cons hnames, Scope.isLeaf]
      cases hchild : s.child? name with
      | none =>
          rw [hchild] at hexcludes'
          have hopen := selects_of_open (c := c.derive name) (by rw [hincludes']; rfl) (by rw [hexcludes']; rfl) rest
          simpa using hopen
      | some below =>
          rw [hchild] at hexcludes'
          simp only [Option.some.injEq, exists_eq_left']
          by_cases hempty : below.isEmpty
          · simp [hempty, Scope.endsOn_of_isEmpty hempty rest]
          · rw [Bool.not_eq_true] at hempty
            rw [given?_of_names hempty] at hexcludes'
            rw [hempty, Bool.not_false, Bool.true_and]
            exact ih hincludes' hexcludes' hempty

/-- Dotted paths of which some has a name, at every depth: where they alone are included, fields take part just if
they begin one of the paths or one from which no other goes on begins them, and where they alone are excluded, just if
none of the paths from which no other goes on begins them. -/
theorem selects_dotted (c : Context) {paths : List String} (hnamed : ∃ path ∈ paths, Scope.pathNames path ≠ [])
    (fields : List String) :
    ({ c with includes := some (.ofPaths paths), excludes := none }.selects fields ↔
      (∃ path ∈ paths, fields <+: Scope.pathNames path) ∨
        ∃ path, Scope.Deepest paths path ∧ Scope.pathNames path <+: fields) ∧
    ({ c with includes := none, excludes := some (.ofPaths paths) }.selects fields ↔
      ¬ ∃ path, Scope.Deepest paths path ∧ Scope.pathNames path <+: fields) := by
  obtain ⟨path, hpath, hne⟩ := hnamed
  have hends : (Scope.ofPaths paths).EndsOn fields ↔
      ∃ path, Scope.Deepest paths path ∧ Scope.pathNames path <+: fields := by
    simp only [Scope.EndsOn, Scope.endsAt_ofPaths ⟨path, hpath, hne⟩]
    constructor
    · rintro ⟨_, hbefore, deepest, hdeepest, rfl⟩
      exact ⟨deepest, hdeepest, hbefore⟩
    · rintro ⟨deepest, hdeepest, hbefore⟩
      exact ⟨_, hbefore, deepest, hdeepest, rfl⟩
  have hnames : (Scope.ofPaths paths).isEmpty = false := by
    obtain ⟨name, rest, hnames⟩ := List.exists_cons_of_ne_nil hne
    have hfirst : ((Scope.ofPaths paths).at? [name]).isSome := by
      rw [Scope.isSome_at?_ofPaths]
      exact .inr ⟨path, hpath, rest, hnames.symm⟩
    rw [Bool.eq_false_iff]
    intro hempty
    rw [Scope.at?_of_isEmpty hempty] at hfirst
    cases hfirst
  refine ⟨?_, ?_⟩
  · rw [selects_of_included rfl hnames rfl, hends, Scope.isSome_at?_ofPaths]
    refine or_congr_left ⟨fun h => h.elim ?_ id, .inr⟩
    rintro rfl
    exact ⟨path, hpath, List.nil_prefix⟩
  · rw [selects_of_excluded rfl rfl hnames, hends]

/-- The articles of a writer, and of them the titles; and the profile. -/
def writerPaths : List String := ["articles", "articles..title", "profile"]

/-- What is below the titles and below the profile goes where they go. -/
theorem writerPaths_select :
    ({ includes := some (.ofPaths writerPaths) } : Context).selects ["articles", "title", "words"] = true ∧
      ({ excludes := some (.ofPaths writerPaths) } : Context).selects ["profile", "picture"] = false := by
  have hnamed : ∃ path ∈ writerPaths, Scope.pathNames path ≠ [] := ⟨"profile", by decide, by decide⟩
  constructor
  · have hwords := selects_dotted {} hnamed ["articles", "title", "words"]
    exact hwords.1.mpr (.inr ⟨"articles..title", by decide, by decide⟩)
  · have hpicture := selects_dotted {} hnamed ["profile", "picture"]
    exact Bool.eq_false_iff.mpr fun h => hpicture.2.mp h ⟨"profile", by decide, by decide⟩

/-- The articles are on the way to their titles, so only these are left out. -/
example : ({ excludes := some (.ofPaths writerPaths) } : Context).selects ["articles", "date"] = true := by decide

end Context

end RecordMapper

/-!
## Trees of names — one text for each tree

Two scopes are one tree if the same names stand at every node, in
whatever order they were given. The text of a scope puts the names of a
level in their order, so one tree has one text
(`canonical_eq_of_same`); and as the text can be read in one way only,
one text has one tree. What paths lead to a scope, in which order and
how often, is therefore not to be seen in its text.
-/

namespace RecordMapper

open scoped List

namespace Scope

variable {s t : Scope}

/-- The same names lead to a node in both trees, and both nodes have the same names, in some order. -/
def SameNames (s t : Scope) : Prop :=
  ∀ path, Option.Rel (fun u v : Scope => u.names ~ v.names) (s.at? path) (t.at? path)

/-! ### The names at a node -/

theorem rel_imp_of_mem {α : Type} {R Q : α → α → Prop} {o o' : Option α} (h : Option.Rel R o o')
    (himp : ∀ a ∈ o, ∀ b ∈ o', R a b → Q a b) : Option.Rel Q o o' := by
  cases h with
  | none => exact .none
  | some hab => exact .some (himp _ rfl _ rfl hab)

theorem isEmpty_eq_of_names_perm (h : s.names ~ t.names) : s.isEmpty = t.isEmpty := by
  have hlength := h.length_eq
  rw [names, names, List.length_map, List.length_map] at hlength
  rw [isEmpty, isEmpty, Bool.eq_iff_iff, List.isEmpty_iff_length_eq_zero, List.isEmpty_iff_length_eq_zero, hlength]

theorem contains_iff_mem_names {name : String} : s.contains name ↔ name ∈ s.names :=
  lookup_isSome_iff_mem_keys

theorem Clear.nodup_names (h : s.Clear) : s.names.Nodup := by
  obtain ⟨hnd, _, _⟩ := h
  exact hnd

theorem Clear.at? (h : s.Clear) {path : List String} {below : Scope} (hb : s.at? path = some below) :
    below.Clear := by
  induction path generalizing s with
  | nil =>
      cases hb
      exact h
  | cons name rest ih =>
      obtain ⟨next, hnext, hrest⟩ := Option.bind_eq_some_iff.mp hb
      exact ih (h.child? hnext) hrest

theorem Same.names_perm (h : s.Same t) (hs : s.Clear) (ht : t.Clear) : s.names ~ t.names :=
  (List.perm_ext_iff_of_nodup hs.nodup_names ht.nodup_names).mpr fun name => by
    rw [← contains_iff_mem_names, ← contains_iff_mem_names, h.contains_eq name]

/-- Clear trees have the same names at every node if the same names lead to scopes in both, and to empty ones
in both. -/
theorem sameNames_iff_same (hs : s.Clear) (ht : t.Clear) : s.SameNames t ↔ s.Same t := by
  constructor
  · intro h path
    have hpath := h path
    generalize s.at? path = u at hpath ⊢
    generalize t.at? path = v at hpath ⊢
    cases hpath with
    | none => rfl
    | some hperm => exact congrArg some (isEmpty_eq_of_names_perm hperm)
  · intro h path
    exact rel_imp_of_mem (h.at? path) fun _ hu _ hv huv => huv.names_perm (hs.at? hu) (ht.at? hv)

/-- Trees to whose nodes the same names lead are the same. -/
theorem same_of_isSome_at? (h : ∀ path, (s.at? path).isSome ↔ (t.at? path).isSome) : s.Same t := by
  intro path
  have hends : s.EndsAt path ↔ t.EndsAt path := by
    simp only [endsAt_iff, ← Option.not_isSome_iff_eq_none, h]
  have hpath := h path
  rw [EndsAt, EndsAt] at hends
  generalize s.at? path = u at hends hpath ⊢
  generalize t.at? path = v at hends hpath ⊢
  cases u with
  | none =>
      cases v with
      | none => rfl
      | some v => exact absurd (hpath.mpr rfl) Bool.false_ne_true
  | some u =>
      cases v with
      | none => exact absurd (hpath.mp rfl) Bool.false_ne_true
      | some v =>
          refine congrArg some (Bool.eq_iff_iff.mpr ?_)
          simpa using hends

/-! ### Sorting a level -/

theorem pairwise_placeByName {e : String × String} {entries : List (String × String)}
    (h : entries.Pairwise fun f g => f.1 ≤ g.1) : (placeByName e entries).Pairwise fun f g => f.1 ≤ g.1 := by
  induction entries with
  | nil => exact List.pairwise_singleton _ e
  | cons f rest ih =>
      obtain ⟨hf, hrest⟩ := List.pairwise_cons.mp h
      rw [placeByName]
      split
      · rename_i hle
        refine List.pairwise_cons.mpr ⟨fun g hg => ?_, h⟩
        rcases List.mem_cons.mp hg with rfl | hg
        · exact hle
        · exact String.le_trans hle (hf g hg)
      · rename_i hle
        refine List.pairwise_cons.mpr ⟨fun g hg => ?_, ih hrest⟩
        rcases List.mem_cons.mp ((placeByName_perm e rest).subset hg) with rfl | hg
        · exact (String.le_total f.1 g.1).resolve_right hle
        · exact hf g hg

theorem pairwise_sortedByName (entries : List (String × String)) :
    (sortedByName entries).Pairwise fun e f => e.1 ≤ f.1 := by
  induction entries with
  | nil => exact .nil
  | cons e rest ih => exact pairwise_placeByName ih

/-- Entries under distinct names are sorted in one way. -/
theorem sortedByName_eq_of_perm {entries others : List (String × String)} (hnd : (entries.map Prod.fst).Nodup)
    (hp : entries ~ others) : sortedByName entries = sortedByName others := by
  have hsorted := sortedByName_perm entries
  have hothers := (sortedByName_perm others).trans hp.symm
  refine List.Perm.eq_of_pairwise (fun e f he hf hef hfe => ?_) (pairwise_sortedByName entries)
    (pairwise_sortedByName others) (hsorted.trans hothers.symm)
  exact List.inj_on_of_nodup_map hnd (hsorted.subset he) (hothers.subset hf) (String.le_antisymm hef hfe)

/-! ### The text of a tree -/

/-- The text of a name of a scope with what is below it. -/
def nameText (s : Scope) (name : String) : String := entryText (name, (s.child? name).getD empty)

/-- Where no name is repeated, the texts of a level are those of its names. -/
theorem canonicalChildren_eq_names (h : s.names.Nodup) :
    canonicalChildren s.children = s.names.map fun name => (name, s.nameText name) := by
  rw [canonicalChildren_eq, names, List.map_map]
  refine List.map_congr_left fun e he => ?_
  have hchild : s.child? e.1 = some e.2 := (lookup_eq_some_iff_mem h).mpr he
  rw [Function.comp_apply, nameText, hchild]
  rfl

/-- One tree has one text. -/
theorem canonical_eq_of_same (hs : s.Clear) (ht : t.Clear) (h : s.Same t) : s.canonical = t.canonical := by
  induction hn : s.size using Nat.strongRecOn generalizing s t with
  | _ n ih =>
      -- Below every name stands a smaller tree, which has the same text in both.
      have htext : ∀ name, s.nameText name = t.nameText name := fun name => by
        have hbelow : Option.Rel (fun u v => entryText (name, u) = entryText (name, v)) (s.child? name)
            (t.child? name) := rel_imp_of_mem (h.child? name) fun u hu v hv huv => by
          have hsmaller : u.size < n := by
            obtain ⟨cs⟩ := s
            rw [← hn]
            exact size_lt_of_mem (mem_of_lookup hu)
          rw [entryText, entryText, huv.isEmpty_eq, ih u.size hsmaller (hs.child? hu) (ht.child? hv) huv rfl]
        rw [nameText, nameText]
        generalize s.child? name = u at hbelow ⊢
        generalize t.child? name = v at hbelow ⊢
        cases hbelow with
        | none => rfl
        | some heq => exact heq
      have hlevel : canonicalChildren s.children ~ canonicalChildren t.children := by
        rw [canonicalChildren_eq_names hs.nodup_names, canonicalChildren_eq_names ht.nodup_names]
        simp only [htext]
        exact (h.names_perm hs ht).map _
      have hkeys : ((canonicalChildren s.children).map Prod.fst).Nodup := by
        rw [canonicalChildren_eq, List.map_map]
        exact hs.nodup_names
      obtain ⟨cs⟩ := s
      obtain ⟨ds⟩ := t
      exact congrArg (fun entries => ",".intercalate (entries.map Prod.snd)) (sortedByName_eq_of_perm hkeys hlevel)

/-- A tree with names has a text, if none of its first names is empty. -/
theorem canonical_ne_empty (h : s.isEmpty = false) (hnames : ∀ name ∈ s.names, name ≠ "") : s.canonical ≠ "" := by
  obtain ⟨cs⟩ := s
  obtain ⟨ds, hds, htext⟩ := exists_canonical_eq cs
  cases ds with
  | nil =>
      obtain rfl := hds.nil_eq
      cases h
  | cons d ds =>
      have hd : d.1 ≠ "" := hnames d.1 (List.mem_map_of_mem (hds.subset List.mem_cons_self))
      -- The text begins with the first name of the sorted level.
      have hbegins : ∃ more, (canonical (.mk cs)).toList = d.1.toList ++ more := by
        rw [htext, String.toList_intercalate, List.map_cons]
        cases ds <;> simp [List.intercalate, toList_entryText]
      obtain ⟨more, hmore⟩ := hbegins
      intro hempty
      rw [hempty] at hmore
      exact hd (String.toList_inj.mp (List.append_eq_nil_iff.mp hmore.symm).1)

/-! ### Trees of paths -/

variable {ps qs : List String}

theorem names_ofPaths_ne_empty {name : String} (h : name ∈ (ofPaths ps).names) : name ≠ "" := by
  have hat : ((ofPaths ps).at? [name]).isSome := by
    obtain ⟨below, hbelow⟩ := Option.isSome_iff_exists.mp (contains_iff_mem_names.mpr h)
    rw [at?, hbelow]
    rfl
  obtain hnil | ⟨path, _, more, hmore⟩ := isSome_at?_ofPaths.mp hat
  · cases hnil
  · have hmem : name ∈ pathNames path := hmore ▸ List.mem_cons_self
    simpa using (List.mem_filter.mp hmem).2

/-- Only the scope without names has no text. -/
theorem canonical_ofPaths_eq_empty : (ofPaths ps).canonical = "" ↔ (ofPaths ps).isEmpty := by
  cases hempty : (ofPaths ps).isEmpty with
  | true =>
      refine iff_of_true ?_ rfl
      generalize ofPaths ps = s at hempty
      obtain ⟨cs⟩ := s
      obtain rfl := List.isEmpty_iff.mp hempty
      rfl
  | false => exact iff_of_false (canonical_ne_empty hempty fun _ => names_ofPaths_ne_empty) Bool.false_ne_true

/-- The same paths lead to the same tree, in whatever order and however often they are given. -/
theorem same_ofPaths (h : ∀ path, path ∈ ps ↔ path ∈ qs) : (ofPaths ps).Same (ofPaths qs) :=
  same_of_isSome_at? fun names => by simp only [isSome_at?_ofPaths, h]

/-- The texts of the scopes of two lists of paths whose names have no mark in them are the same exactly if the scopes
are the same tree, the same names at every node; and so the text does not depend on the order in which the
paths are given, nor on how often. -/
theorem canonical_ofPaths_eq_iff (hps : ∀ path ∈ ps, ∀ n ∈ pathNames path, ∀ c ∈ n.toList, c ∉ scopeMarks)
    (hqs : ∀ path ∈ qs, ∀ n ∈ pathNames path, ∀ c ∈ n.toList, c ∉ scopeMarks) :
    ((ofPaths ps).canonical = (ofPaths qs).canonical ↔ (ofPaths ps).SameNames (ofPaths qs)) ∧
    ((∀ path, path ∈ ps ↔ path ∈ qs) → (ofPaths ps).canonical = (ofPaths qs).canonical) := by
  have hs := clear_ofPaths hps
  have ht := clear_ofPaths hqs
  refine ⟨?_, fun h => canonical_eq_of_same hs ht (same_ofPaths h)⟩
  rw [sameNames_iff_same hs ht]
  refine ⟨fun heq => ?_, canonical_eq_of_same hs ht⟩
  have hempty : (ofPaths ps).isEmpty = (ofPaths qs).isEmpty := by
    rw [Bool.eq_iff_iff, ← canonical_ofPaths_eq_empty, ← canonical_ofPaths_eq_empty, heq]
  cases hse : (ofPaths ps).isEmpty with
  | true => exact same_of_isEmpty hse (hempty ▸ hse)
  | false =>
      have hover : Closes [] := fun c hc => nomatch hc
      exact same_of_canonical_eq hs ht hse (hempty ▸ hse) hover hover (by rw [heq])

/-! ### Fields of articles -/

/-- The fields of an article, and the same in another order with one that is given twice. -/
def articleFields : List String := ["author.name", "title"]

def reorderedFields : List String := ["title", "author", "author.name", "title"]

theorem canonical_reorderedFields :
    (∀ path ∈ articleFields, ∀ n ∈ pathNames path, ∀ c ∈ n.toList, c ∉ scopeMarks) ∧
      (∀ path ∈ reorderedFields, ∀ n ∈ pathNames path, ∀ c ∈ n.toList, c ∉ scopeMarks) ∧
      (ofPaths articleFields).SameNames (ofPaths reorderedFields) ∧
      (ofPaths articleFields.reverse).canonical = (ofPaths articleFields).canonical := by
  have hmarks : ∀ path ∈ articleFields ++ reorderedFields,
      ∀ n ∈ pathNames path, n.toList.all fun c => !scopeMarks.contains c := by decide
  have hclear : ∀ path ∈ articleFields ++ reorderedFields, ∀ n ∈ pathNames path, ∀ c ∈ n.toList, c ∉ scopeMarks := by
    intro path hpath n hn c hc
    simpa using List.all_eq_true.mp (hmarks path hpath n hn) c hc
  have hfields := (List.forall_mem_append.mp hclear).1
  have hreordered := (List.forall_mem_append.mp hclear).2
  refine ⟨hfields, hreordered, (canonical_ofPaths_eq_iff hfields hreordered).1.mp rfl, ?_⟩
  exact (canonical_ofPaths_eq_iff (fun path hpath => hfields path (List.mem_reverse.mp hpath)) hfields).2
    fun path => List.mem_reverse

/-- With marks in a name two trees may have one text. -/
example : (ofPaths ["author(name)"]).canonical = (ofPaths ["author.name"]).canonical := by decide +kernel

end Scope

end RecordMapper
