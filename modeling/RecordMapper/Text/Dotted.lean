/-!
Dotted paths as texts.

Splitting a path at its dots and joining names with dots undo each other, as long as no name has a dot in
it; the names of a path never do.
-/

namespace RecordMapper

/-- The names of a dotted path. There is always one, and between two dots it is empty. -/
def dottedNames (path : String) : List String := (path.toList.splitOn '.').map String.ofList

theorem not_mem_of_mem_splitOn {xs piece : List Char} {c : Char} (h : piece ∈ xs.splitOn c) :
    c ∉ piece := by
  induction xs generalizing piece with
  | nil =>
      rw [List.splitOn_nil, List.mem_singleton] at h
      rw [h]
      exact List.not_mem_nil
  | cons x rest ih =>
      rw [List.splitOn_cons_eq_if_modifyHead] at h
      split at h
      · rcases List.mem_cons.mp h with rfl | hrest
        · exact List.not_mem_nil
        · exact ih hrest
      · rename_i hx
        cases hp : rest.splitOn c with
        | nil => exact absurd hp (List.splitOn_ne_nil c rest)
        | cons first others =>
            rw [hp, List.modifyHead_cons] at h
            rcases List.mem_cons.mp h with rfl | hothers
            · have hfirst : c ∉ first := ih (by rw [hp]; exact List.mem_cons_self)
              rw [List.mem_cons, not_or]
              exact ⟨fun hc => hx (by simp [hc]), hfirst⟩
            · exact ih (by rw [hp]; exact List.mem_cons_of_mem _ hothers)

theorem not_mem_of_mem_dottedNames {path name : String} (h : name ∈ dottedNames path) :
    '.' ∉ name.toList := by
  obtain ⟨piece, hpiece, rfl⟩ := List.mem_map.mp h
  rw [String.toList_ofList]
  exact not_mem_of_mem_splitOn hpiece

/-- The names of joined names are the names. -/
theorem dottedNames_intercalate {names : List String} (hne : names ≠ [])
    (h : ∀ n ∈ names, '.' ∉ n.toList) : dottedNames (".".intercalate names) = names := by
  have hdot : ".".toList = ['.'] := rfl
  rw [dottedNames, String.toList_intercalate, hdot, List.splitOn_intercalate]
  · rw [List.map_map]
    exact (List.map_congr_left fun n _ => String.ofList_toList).trans (List.map_id names)
  · intro piece hpiece
    obtain ⟨n, hn, rfl⟩ := List.mem_map.mp hpiece
    exact h n hn
  · exact fun hnil => hne (List.map_eq_nil_iff.mp hnil)

theorem dottedNames_self {name : String} (h : '.' ∉ name.toList) : dottedNames name = [name] := by
  rw [dottedNames, List.splitOn_eq_singleton h, List.map_singleton, String.ofList_toList]

/-- A path is its names joined. -/
theorem intercalate_dottedNames (path : String) : ".".intercalate (dottedNames path) = path := by
  have hdot : ".".toList = ['.'] := rfl
  have hlist : (".".intercalate (dottedNames path)).toList = path.toList := by
    rw [String.toList_intercalate, hdot, dottedNames, List.map_map]
    have hid : (path.toList.splitOn '.').map (String.toList ∘ String.ofList) = path.toList.splitOn '.' :=
      (List.map_congr_left fun piece _ => String.toList_ofList).trans (List.map_id _)
    rw [hid, List.intercalate_splitOn]
  exact String.toList_inj.mp hlist

end RecordMapper
