import RecordMapper.Proofs.Registry.Navigable
import RecordMapper.Proofs.Store.Links

/-!
# Named columns — columns that are found by their names

A column that is found by its name may be one of an ancestor, or the
primary key under one of its two names. It is read from the table of the
level that declares it, and a new row has what is given for it there. A
row that stands as it was at every level of its model has the values it
had.
-/

namespace RecordMapper.Store

variable {reg : Registry} {st st' : Store} {m level t : Model} {f : Field} {name : String} {k pk v : Value}
  {values : Record} {now : Instant}

/-- A row is read from the tables of its model and of the ancestors. -/
theorem cell_congr_lineage (h : ∀ level ∈ reg.lineage m, st'.row? level k = st.row? level k) (name : String) :
    cell reg st' m k name = cell reg st m k name := by
  unfold cell
  split
  · rfl
  · split
    · rfl
    · rename_i owner howner
      rw [h owner (columnOwner?_mem howner)]

/-- A name that does not stand for the primary key is neither of its names. -/
theorem fieldName_ne_pkName_iff : m.fieldName name ≠ m.pkName ↔ name ≠ "pk" ∧ name ≠ m.pkName := by
  rw [Model.fieldName]
  split <;> simp_all

theorem fieldName_of_ne (h : name ≠ "pk") : m.fieldName name = name := by
  rw [Model.fieldName, if_neg (by simpa using h)]

/-- The name of a column reads that column. -/
theorem reads_of_field? (hdot : '.' ∉ name.toList) (hf : reg.field? m name = some f) (hconcrete : f.isConcrete) :
    Reads reg m name := by
  intro st k
  have hvalues : columnValues reg st m (fun _ => none) k name = pathValues reg st m k name := rfl
  rw [hvalues, pathValues_of_name (dottedNames_self hdot) (Registry.field_eq_ok.mpr hf) hconcrete,
    Registry.name_eq_of_field? hf, cell_fieldName]

/-- The primary key that is given under one of its names. -/
theorem givenKey?_named (hname : m.fieldName name = m.pkName) (hv : values.get? name = some v) (hnull : v.isNull = false)
    (honly : ∀ e ∈ values, m.fieldName e.1 = m.fieldName name → e.1 = name) : givenKey? m values = some v := by
  have hfirst : (values.get? m.pkName).or (values.get? "pk") = some v := by
    by_cases hkey : name = m.pkName
    · rw [← hkey, hv, Option.some_or]
    · have hnone : values.get? m.pkName = none := by
        rw [Record.get?, List.lookup_eq_none_iff]
        intro e he
        rw [bne_iff_ne]
        intro hpk
        exact hkey ((honly e he (by rw [← hpk, Registry.fieldName_pkName, hname])).symm.trans hpk.symm)
      have hpk : name = "pk" := by
        by_contra hne
        exact fieldName_ne_pkName_iff.mpr ⟨hne, hkey⟩ hname
      rw [hnone, Option.none_or, ← hpk, hv]
  rw [givenKey?, hfirst, Option.filter_some, hnull]
  rfl

/-! ## Columns of a built registry -/

section Built

variable {decls : List ModelDecl} (hb : Registry.build decls = .ok reg) (hm : m ∈ reg.models)
include hb hm

/-- The models of an inheritance name their primary key alike. -/
theorem pkName_of_mem_lineage (hl : level ∈ reg.lineage m) : level.pkName = m.pkName := by
  obtain ⟨settled, hbuilt⟩ := Registry.builtFrom_of_build hb
  exact hbuilt.pkName_of_mem_lineage hm hl

/-- The nearest level with a field of a name declares the column that is found by it. -/
theorem exists_level_of_field? (hf : reg.field? m name = some f) (hconcrete : f.isConcrete) :
    ∃ level ∈ reg.lineage m, f ∈ level.own ∧
      (m.fieldName name ≠ m.pkName → f.name = name ∧ columnOwner? reg m name = some level) := by
  obtain ⟨settled, hbuilt⟩ := Registry.builtFrom_of_build hb
  have hfound := hf
  rw [Registry.field?, List.findSome?_eq_some_iff] at hfound
  obtain ⟨before, level, after, hlineage, hfind, hnone⟩ := hfound
  have hl : level ∈ reg.lineage m := hlineage ▸ List.mem_append_right _ List.mem_cons_self
  have hown : f ∈ level.own :=
    hbuilt.mem_own_of_isConcrete (hbuilt.rooted.mem_models hm hl) (List.mem_of_find?_eq_some hfind) hconcrete
  refine ⟨level, hl, hown, fun hne => ?_⟩
  have hself := fieldName_of_ne (m := m) (fieldName_ne_pkName_iff.mp hne).1
  rw [hself] at hne hnone
  have hfn : f.name = name := (Registry.name_eq_of_field? hf).trans hself
  refine ⟨hfn, ?_⟩
  rw [columnOwner?, if_neg (by simpa using hne), List.find?_eq_some_iff_append]
  refine ⟨List.any_eq_true.mpr ⟨f, hown, by simp [hfn, hconcrete]⟩, before, after, hlineage, fun below hbelow => ?_⟩
  -- No level below has a field of the name, so none has a column of it.
  have hmissing := List.find?_eq_none.mp (hnone below hbelow)
  rw [Bool.not_eq_true', List.any_eq_false]
  intro g hg hcolumn
  exact hmissing g (List.mem_append_left _ hg) (Bool.and_eq_true_iff.mp hcolumn).1

/-- The columns that are part of the primary key have its name. -/
theorem primaryKey_of_ne_key (hne : name ≠ m.pkName) : ∀ f ∈ reg.localColumns m, f.name = name → f.primaryKey = false := by
  obtain ⟨settled, hbuilt⟩ := Registry.builtFrom_of_build hb
  intro f hf hname
  by_contra hp
  rw [Bool.not_eq_false] at hp
  refine hne (hname.symm.trans ?_)
  rcases List.mem_append.mp hf with hinherited | hcolumn
  · split at hinherited
    · exact Registry.name_of_field_pkName (Option.mem_toList.mp hinherited)
    · cases hinherited
  · exact (hbuilt.of_primaryKey hm (List.mem_filter.mp hcolumn).1 hp).2

/-- A column is read from the table of the level that has it. -/
theorem cell_of_owner (hl : level ∈ reg.lineage m) (hown : f ∈ level.own) (hconcrete : f.isConcrete)
    (hne : f.name ≠ "pk" ∧ f.name ≠ m.pkName) (howner : columnOwner? reg m f.name = some level) (st : Store) (k : Value) :
    cell reg st m k f.name = cell reg st level k f.name := by
  have hr := Registry.rooted_of_build hb
  rw [cell_of_own hr (hr.mem_models hm hl) hown hconcrete, if_neg (by simp [hne, pkName_of_mem_lineage hb hm hl]), cell,
    if_neg (by simp [hne]), howner]
  cases h : st.row? level k <;> simp only [h] <;> rfl

/-- A column that is found by its name is a column of some level. -/
theorem exists_cell_of_field? (hf : reg.field? m name = some f) (hconcrete : f.isConcrete) :
    ∃ level ∈ reg.lineage m, f ∈ level.own ∧ ∀ st k, cell reg st m k name = cell reg st level k f.name := by
  obtain ⟨level, hl, hown, howner⟩ := exists_level_of_field? hb hm hf hconcrete
  refine ⟨level, hl, hown, fun st k => ?_⟩
  by_cases hne : m.fieldName name = m.pkName
  · rw [← cell_fieldName reg st m k name, Registry.name_eq_of_field? hf, hne, ← pkName_of_mem_lineage hb hm hl,
      cell_pkName, pkName_of_mem_lineage hb hm hl, cell_pkName]
  · obtain ⟨rfl, howner⟩ := howner hne
    exact cell_of_owner hb hm hl hown hconcrete (fieldName_ne_pkName_iff.mp hne) howner st k

/-- A new row has what is given for a column under one name alone. -/
theorem cell_insert_named (hf : reg.field? m name = some f) (hconcrete : f.isConcrete)
    (h : insert reg now st m values = .ok (pk, st')) (hv : values.get? name = some v) (hnull : v.isNull = false)
    (honly : ∀ e ∈ values, m.fieldName e.1 = m.fieldName name → e.1 = name) : cell reg st' m pk name = v := by
  have hr := Registry.rooted_of_build hb
  by_cases hname : m.fieldName name = m.pkName
  · obtain ⟨_, _, hkey, _⟩ := insert_eq_ok h
    rw [newKey, givenKey?_named hname hv hnull honly] at hkey
    rw [← cell_fieldName, hname, cell_pkName, hkey]
  · obtain ⟨level, hl, hown, howner⟩ := exists_level_of_field? hb hm hf hconcrete
    obtain ⟨rfl, howner⟩ := howner hname
    have hne := fieldName_ne_pkName_iff.mp hname
    have hlevel : f.name ≠ level.pkName := pkName_of_mem_lineage hb hm hl ▸ hne.2
    rw [cell_of_owner hb hm hl hown hconcrete hne howner]
    exact cell_insert hr hm h hl hown hconcrete ⟨hne.1, hlevel⟩
      (primaryKey_of_ne_key hb (hr.mem_models hm hl) hlevel) hv

end Built

end RecordMapper.Store
