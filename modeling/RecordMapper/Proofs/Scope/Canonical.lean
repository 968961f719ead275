import Mathlib.Data.List.Forall2
import Mathlib.Data.List.Perm.Basic
import RecordMapper.Proofs.Entries
import RecordMapper.Scope

/-!
# Canonical texts — a tree of names read back from its text

The text of a scope puts what is below a name in parentheses behind it
and commas between names. As long as no name has one of these marks in
it, the text can be read in one way only: scopes with one text are the
same tree up to the order of names (`same_of_canonical_eq`).
-/

namespace RecordMapper

open scoped List

/-! ## Texts up to a mark -/

/-- The characters that structure the text of a scope. -/
def scopeMarks : List Char := [',', '(', ')']

/-- A text that is over or goes on with one of some marks. -/
def StopsAt (marks xs : List Char) : Prop := ∀ c ∈ xs.head?, c ∈ marks

/-- A text is cut in one way into a part without marks and a rest that begins with one. -/
theorem cut_at_mark {marks xs ys us vs : List Char} (hx : ∀ c ∈ xs, c ∉ marks) (hy : ∀ c ∈ ys, c ∉ marks)
    (hu : StopsAt marks us) (hv : StopsAt marks vs) (h : xs ++ us = ys ++ vs) : xs = ys ∧ us = vs := by
  induction xs generalizing ys with
  | nil =>
      cases ys with
      | nil => exact ⟨rfl, h⟩
      | cons y ys =>
          rw [List.nil_append] at h
          exact absurd (hu y (by rw [h]; rfl)) (hy y List.mem_cons_self)
  | cons x xs ih =>
      cases ys with
      | nil =>
          rw [List.nil_append] at h
          exact absurd (hv x (by rw [← h]; rfl)) (hx x List.mem_cons_self)
      | cons y ys =>
          obtain ⟨rfl, hrest⟩ := List.cons.inj h
          obtain ⟨rfl, rfl⟩ := ih (fun c hc => hx c (List.mem_cons_of_mem _ hc))
            (fun c hc => hy c (List.mem_cons_of_mem _ hc)) hrest
          exact ⟨rfl, rfl⟩

namespace Scope

/-! ## Trees up to the order of names -/

/-- The scope that names lead to, each below the one before. -/
def at? : Scope → List String → Option Scope
  | s, [] => some s
  | s, name :: rest => (s.child? name).bind fun below => below.at? rest

/-- The same names lead to scopes in both trees, and to empty ones in both. -/
def Same (s t : Scope) : Prop := ∀ path, (s.at? path).map isEmpty = (t.at? path).map isEmpty

/-- Every level names nothing twice, and no name has a mark in it. -/
inductive Clear : Scope → Prop
  | mk {cs : List (String × Scope)} (nodup : (cs.map Prod.fst).Nodup)
    (names : ∀ e ∈ cs, ∀ c ∈ e.1.toList, c ∉ scopeMarks) (below : ∀ e ∈ cs, Clear e.2) : Clear (.mk cs)

variable {s t : Scope}

theorem same_of_isEmpty (hs : s.isEmpty) (ht : t.isEmpty) : s.Same t := by
  obtain ⟨cs⟩ := s
  obtain ⟨ds⟩ := t
  obtain rfl := List.isEmpty_iff.mp hs
  obtain rfl := List.isEmpty_iff.mp ht
  exact fun _ => rfl

/-- Levels that name the same, with the same trees below each name, are the same tree. -/
theorem same_of_children (he : s.isEmpty = t.isEmpty)
    (h : ∀ name, Option.Rel Same (s.child? name) (t.child? name)) : s.Same t := by
  rintro (_ | ⟨name, rest⟩)
  · exact congrArg some he
  · have hname := h name
    rw [at?, at?]
    generalize s.child? name = below at hname ⊢
    generalize t.child? name = below' at hname ⊢
    cases hname with
    | none => rfl
    | some hsame => exact hsame rest

theorem Same.child? (h : s.Same t) (name : String) :
    Option.Rel Same (s.child? name) (t.child? name) := by
  have hpath : ∀ rest, ((s.child? name).bind (at? · rest)).map isEmpty =
      ((t.child? name).bind (at? · rest)).map isEmpty := fun rest => h (name :: rest)
  generalize s.child? name = below at hpath ⊢
  generalize t.child? name = below' at hpath ⊢
  cases below with
  | none =>
      cases below' with
      | none => exact .none
      | some u => exact absurd (hpath []) (by simp [at?])
  | some u =>
      cases below' with
      | none => exact absurd (hpath []) (by simp [at?])
      | some u' => exact .some hpath

/-! ## The text of a level -/

/-- The text of a name with what is below it. -/
def entryText (e : String × Scope) : String :=
  if e.2.isEmpty then e.1 else e.1 ++ "(" ++ canonical e.2 ++ ")"

theorem canonicalChildren_eq (cs : List (String × Scope)) :
    canonicalChildren cs = cs.map fun e => (e.1, entryText e) := by
  induction cs with
  | nil => rfl
  | cons e rest ih =>
      obtain ⟨name, below⟩ := e
      rw [canonicalChildren, ih]
      rfl

theorem placeByName_perm (e : String × String) (entries : List (String × String)) :
    placeByName e entries ~ e :: entries := by
  induction entries with
  | nil => exact .refl _
  | cons f rest ih =>
      rw [placeByName]
      split
      · exact .refl _
      · exact (ih.cons f).trans (.swap e f rest)

theorem sortedByName_perm (entries : List (String × String)) : sortedByName entries ~ entries := by
  induction entries with
  | nil => exact .refl _
  | cons e rest ih => exact (placeByName_perm e _).trans (ih.cons e)

/-- The text of a level lists its entries in some order. -/
theorem exists_canonical_eq (cs : List (String × Scope)) :
    ∃ ds, ds ~ cs ∧ canonical (.mk cs) = ",".intercalate (ds.map entryText) := by
  have hforall : List.Forall₂ (fun text e => text = (e.1, entryText e)) (canonicalChildren cs) cs := by
    rw [canonicalChildren_eq, List.forall₂_map_left_iff, List.forall₂_same]
    exact fun _ _ => rfl
  obtain ⟨ds, hds, hperm⟩ := List.perm_comp_forall₂ (sortedByName_perm _) hforall
  refine ⟨ds, hperm, ?_⟩
  have htexts : (sortedByName (canonicalChildren cs)).map Prod.snd = ds.map entryText := by
    rw [← List.forall₂_eq_eq_eq, List.forall₂_map_left_iff, List.forall₂_map_right_iff]
    exact hds.imp fun _ _ he => by rw [he]
  rw [canonical, htexts]

theorem toList_entryText (e : String × Scope) :
    (entryText e).toList =
      e.1.toList ++ if e.2.isEmpty then [] else '(' :: ((canonical e.2).toList ++ [')']) := by
  rw [entryText]
  split
  · simp
  · simp [String.toList_append]

/-! ## Reading a level -/

/-- What can follow a level: its parenthesis is closed, or the text is over. -/
abbrev Closes (xs : List Char) : Prop := StopsAt [')'] xs

/-- What can follow an entry: the next one, or the end of the level. -/
abbrev Parts (xs : List Char) : Prop := StopsAt [',', ')'] xs

/-- The text of a level is read in one way from the front of a text. -/
def Legible (s : Scope) : Prop :=
  ∀ t : Scope, t.Clear → s.isEmpty = false → t.isEmpty = false → ∀ us vs, Closes us → Closes vs →
    (canonical s).toList ++ us = (canonical t).toList ++ vs → s.Same t ∧ us = vs

theorem parts_stop {xs : List Char} (h : Parts xs) : StopsAt scopeMarks xs := by
  intro c hc
  have := h c hc
  simp only [scopeMarks, List.mem_cons, List.not_mem_nil, or_false] at this ⊢
  rcases this with rfl | rfl <;> simp

theorem closes_part {xs : List Char} (h : Closes xs) : Parts xs := fun c hc =>
  List.mem_cons_of_mem _ (h c hc)

theorem entry_legible {d e : String × Scope} {us vs : List Char} (hd : ∀ c ∈ d.1.toList, c ∉ scopeMarks)
    (he : ∀ c ∈ e.1.toList, c ∉ scopeMarks) (hbelow : Legible d.2) (hclear : e.2.Clear)
    (hu : Parts us) (hv : Parts vs) (h : (entryText d).toList ++ us = (entryText e).toList ++ vs) :
    (d.1 = e.1 ∧ d.2.Same e.2) ∧ us = vs := by
  -- The name comes first, and a mark or nothing behind it.
  have hstop : ∀ (below : Scope) (xs : List Char), Parts xs → StopsAt scopeMarks
      ((if below.isEmpty then [] else '(' :: ((canonical below).toList ++ [')'])) ++ xs) := by
    intro below xs hxs
    split
    · exact parts_stop hxs
    · intro c hc
      cases hc
      simp [scopeMarks]
  rw [toList_entryText, toList_entryText, List.append_assoc, List.append_assoc] at h
  obtain ⟨hname, hrest⟩ := cut_at_mark hd he (hstop d.2 us hu) (hstop e.2 vs hv) h
  have hopen : ∀ xs, Parts xs → ∀ ys, xs ≠ '(' :: ys := by
    rintro xs hxs ys rfl
    exact absurd (hxs '(' rfl) (by decide)
  cases hdb : d.2.isEmpty with
  | true =>
      cases heb : e.2.isEmpty with
      | true =>
          simp only [hdb, heb, if_true, List.nil_append] at hrest
          exact ⟨⟨String.toList_inj.mp hname, same_of_isEmpty hdb heb⟩, hrest⟩
      | false =>
          simp only [hdb, heb, if_true, Bool.false_eq_true, if_false, List.nil_append,
            List.cons_append] at hrest
          exact absurd hrest (hopen us hu _)
  | false =>
      cases heb : e.2.isEmpty with
      | true =>
          simp only [hdb, heb, if_true, Bool.false_eq_true, if_false, List.nil_append,
            List.cons_append] at hrest
          exact absurd hrest.symm (hopen vs hv _)
      | false =>
          simp only [hdb, heb, Bool.false_eq_true, if_false, List.cons_append, List.append_assoc,
            List.nil_append, List.cons.injEq, true_and] at hrest
          have hclose : ∀ xs, Closes (')' :: xs) := by
            intro xs c hc
            cases hc
            exact List.mem_cons_self
          obtain ⟨hsame, htail⟩ := hbelow e.2 hclear hdb heb _ _ (hclose us) (hclose vs) hrest
          exact ⟨⟨String.toList_inj.mp hname, hsame⟩, (List.cons.inj htail).2⟩

theorem entries_legible {ds es : List (String × Scope)} {us vs : List Char}
    (hd : ∀ d ∈ ds, (∀ c ∈ d.1.toList, c ∉ scopeMarks) ∧ Legible d.2)
    (he : ∀ e ∈ es, (∀ c ∈ e.1.toList, c ∉ scopeMarks) ∧ e.2.Clear) (hdn : ds ≠ []) (hen : es ≠ [])
    (hu : Closes us) (hv : Closes vs)
    (h : [','].intercalate (ds.map fun d => (entryText d).toList) ++ us =
      [','].intercalate (es.map fun e => (entryText e).toList) ++ vs) :
    List.Forall₂ (fun d e => d.1 = e.1 ∧ d.2.Same e.2) ds es ∧ us = vs := by
  have hcomma : ∀ xs : List Char, Parts (',' :: xs) := by
    intro xs c hc
    cases hc
    exact List.mem_cons_self
  have hends : ∀ xs ys : List Char, Closes xs → xs ≠ ',' :: ys := by
    rintro xs ys hxs rfl
    exact absurd (hxs ',' rfl) (by decide)
  induction ds generalizing es with
  | nil => exact absurd rfl hdn
  | cons d ds ih =>
      obtain ⟨hdname, hdlegible⟩ := hd d List.mem_cons_self
      cases es with
      | nil => exact absurd rfl hen
      | cons e es =>
          obtain ⟨hename, heclear⟩ := he e List.mem_cons_self
          have hread : ∀ xs ys, Parts xs → Parts ys →
              (entryText d).toList ++ xs = (entryText e).toList ++ ys →
              (d.1 = e.1 ∧ d.2.Same e.2) ∧ xs = ys :=
            fun _ _ => entry_legible hdname hename hdlegible heclear
          cases ds with
          | nil =>
              cases es with
              | nil =>
                  obtain ⟨hsame, hrest⟩ := hread us vs (closes_part hu) (closes_part hv) (by simpa using h)
                  exact ⟨.cons hsame .nil, hrest⟩
              | cons e' es =>
                  obtain ⟨_, hrest⟩ := hread us _ (closes_part hu) (hcomma _) (by simpa using h)
                  exact absurd hrest (hends us _ hu)
          | cons d' ds =>
              cases es with
              | nil =>
                  obtain ⟨_, hrest⟩ := hread _ vs (hcomma _) (closes_part hv) (by simpa using h)
                  exact absurd hrest.symm (hends vs _ hv)
              | cons e' es =>
                  obtain ⟨hsame, hrest⟩ := hread _ _ (hcomma _) (hcomma _) (by simpa using h)
                  obtain ⟨hall, htail⟩ := ih (fun d hd' => hd d (List.mem_cons_of_mem _ hd'))
                    (fun e he' => he e (List.mem_cons_of_mem _ he')) (by simp) (by simp)
                    (List.cons.inj hrest).2
                  exact ⟨.cons hsame hall, htail⟩

/-! ## Whole trees -/

theorem same_of_forall₂ {cs cs' ds es : List (String × Scope)} (hc : (cs.map Prod.fst).Nodup)
    (hc' : (cs'.map Prod.fst).Nodup) (hds : ds ~ cs) (hes : es ~ cs')
    (h : List.Forall₂ (fun d e => d.1 = e.1 ∧ d.2.Same e.2) ds es) : Same (.mk cs) (.mk cs') := by
  have hlength : cs.length = cs'.length := by rw [← hds.length_eq, h.length_eq, hes.length_eq]
  refine same_of_children ?_ fun name => ?_
  · show cs.isEmpty = cs'.isEmpty
    rw [Bool.eq_iff_iff, List.isEmpty_iff_length_eq_zero, List.isEmpty_iff_length_eq_zero, hlength]
  · show Option.Rel Same (cs.lookup name) (cs'.lookup name)
    rw [← lookup_eq_of_perm hc hds, ← lookup_eq_of_perm hc' hes]
    clear hds hes
    induction h with
    | nil => exact .none
    | @cons d e ds es hde _ ih =>
        obtain ⟨dname, below⟩ := d
        obtain ⟨ename, below'⟩ := e
        obtain ⟨rfl, hsame⟩ := hde
        rw [List.lookup_cons, List.lookup_cons]
        cases name == dname with
        | true => exact .some hsame
        | false => exact ih

theorem size_lt_of_mem {cs : List (String × Scope)} {e : String × Scope} (h : e ∈ cs) :
    e.2.size < childrenSize cs := by
  induction cs with
  | nil => cases h
  | cons f rest ih =>
      rw [childrenSize]
      rcases List.mem_cons.mp h with rfl | hrest
      · omega
      · exact Nat.lt_add_left _ (ih hrest)

/-- The text of a scope is read in one way, level by level. -/
theorem legible (hs : s.Clear) : Legible s := by
  induction hn : s.size using Nat.strongRecOn generalizing s with
  | _ n ih =>
      intro t ht hse hte us vs hu hv h
      obtain ⟨hnd, hnames, hbelow⟩ := hs
      obtain ⟨hnd', hnames', hbelow'⟩ := ht
      rename_i cs cs'
      obtain ⟨ds, hds, hdtext⟩ := exists_canonical_eq cs
      obtain ⟨es, hes, hetext⟩ := exists_canonical_eq cs'
      have hne : ∀ {cs ds : List (String × Scope)}, ds ~ cs → (Scope.mk cs).isEmpty = false → ds ≠ [] := by
        rintro cs ds hp he rfl
        rw [hp.symm.eq_nil] at he
        cases he
      have hcomma : ",".toList = [','] := rfl
      rw [hdtext, hetext, String.toList_intercalate, String.toList_intercalate, List.map_map, List.map_map,
        hcomma] at h
      -- Below every name stands a smaller tree.
      have hread : ∀ d ∈ ds, (∀ c ∈ d.1.toList, c ∉ scopeMarks) ∧ Legible d.2 := by
        intro d hd
        have hmem := hds.subset hd
        refine ⟨hnames d hmem, ih _ ?_ (hbelow d hmem) rfl⟩
        rw [← hn]
        exact size_lt_of_mem hmem
      have hother : ∀ e ∈ es, (∀ c ∈ e.1.toList, c ∉ scopeMarks) ∧ e.2.Clear :=
        fun e he => ⟨hnames' e (hes.subset he), hbelow' e (hes.subset he)⟩
      obtain ⟨hall, hrest⟩ := entries_legible hread hother (hne hds hse) (hne hes hte) hu hv h
      exact ⟨same_of_forall₂ hnd hnd' hds hes hall, hrest⟩

/-- Scopes with one text are the same tree up to the order of names. -/
theorem same_of_canonical_eq (hs : s.Clear) (ht : t.Clear) (hse : s.isEmpty = false)
    (hte : t.isEmpty = false) {us vs : List Char} (hu : Closes us) (hv : Closes vs)
    (h : (canonical s).toList ++ us = (canonical t).toList ++ vs) : s.Same t :=
  (legible hs t ht hse hte us vs hu hv h).1

end Scope

end RecordMapper
