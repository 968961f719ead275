import RecordMapper.Proofs.Registry.Tracks

/-!
# Names — which fields of a model share one

When the other side of a relation is hung on a model, its name is held
against the names that are on this model already, declared or hung
(`unclashing_of_build`). Names are not held against those of ancestors,
and those of the declared fields not against each other. So a model's
fields have names of their own exactly if each of its levels declares
every name once and no two of its levels share one
(`nodup_names_iff`); otherwise what is nearer, and of one level what
comes first, hides what else has its name.
-/

namespace RecordMapper.Registry

variable {decls : List ModelDecl} {reg : Registry} {m : Model}

/-! ## Names on one model -/

/-- The other sides that hang on a model have names of their own, none of them that of a declared field. -/
def Unclashing (m : Model) : Prop :=
  (m.reverse.map Field.name).Nodup ∧ List.Disjoint (m.own.map Field.name) (m.reverse.map Field.name)

theorem nodup_localFields_iff (h : Unclashing m) :
    (m.localFields.map Field.name).Nodup ↔ (m.own.map Field.name).Nodup := by
  rw [Model.localFields, List.map_append, List.nodup_append']
  exact ⟨fun hall => hall.1, fun hown => ⟨hown, h⟩⟩

/-- Names on a model stay apart if one more is hung on it that is not among them. -/
theorem Unclashing.hung {side : String × Field} (h : Unclashing m)
    (hfree : side.1 = m.name → side.2.name ∉ m.localFields.map Field.name) : Unclashing (hung [side] m) := by
  by_cases htarget : side.1 = m.name
  · have hfree := hfree htarget
    rw [Model.localFields, List.map_append, List.mem_append, not_or] at hfree
    have hreverse : (Registry.hung [side] m).reverse = m.reverse ++ [side.2] := by simp [Registry.hung, htarget]
    rw [Unclashing, hreverse, List.map_append, List.map_singleton]
    refine ⟨List.nodup_append'.mpr ⟨h.1, List.nodup_singleton _, ?_⟩, ?_⟩
    · simpa using hfree.2
    · have hown : side.2.name ∉ (Registry.hung [side] m).own.map Field.name := hfree.1
      rw [List.disjoint_append_right]
      exact ⟨h.2, List.disjoint_singleton.mpr hown⟩
  · have hreverse : Registry.hung [side] m = m := by simp [Registry.hung, htarget]
    rwa [hreverse]

/-- A side that could be hung up has a name that its target did not have. -/
theorem free_of_attach {models models' : List Model} {target : String} {f : Field}
    (h : attach models target f = .ok models') (hnames : (models.map Model.name).Nodup) (hm : m ∈ models)
    (htarget : target = m.name) : f.name ∉ m.localFields.map Field.name := by
  subst htarget
  simp only [attach, find?_of_nodup_names hnames hm] at h
  split at h
  · cases h
  · rename_i hany
    intro hmem
    obtain ⟨g, hg, hname⟩ := List.mem_map.mp hmem
    exact hany (List.any_eq_true.mpr ⟨g, hg, beq_iff_eq.mpr hname⟩)

/-- Among models of distinct names, hanging up one side after the other keeps the names on each model apart. -/
theorem unclashing_of_foldlM {sides : List (String × Field)} {models models' : List Model}
    (h : sides.foldlM (fun models s => attach models s.1 s.2) models = .ok models')
    (hnames : (models.map Model.name).Nodup) (hall : ∀ m ∈ models, Unclashing m) : ∀ m ∈ models', Unclashing m := by
  refine (Outcome.foldlM_keeps (P := fun models => (models.map Model.name).Nodup ∧ ∀ m ∈ models, Unclashing m)
    ?_ ⟨hnames, hall⟩ h).2
  rintro ⟨target, f⟩ _ models models' ⟨hnames, hall⟩ hattach
  obtain rfl := attach_eq_ok hattach
  refine ⟨by simpa [Function.comp_def] using hnames, fun m' hm' => ?_⟩
  obtain ⟨m, hm, rfl⟩ := List.mem_map.mp hm'
  exact (hall m hm).hung (free_of_attach hattach hnames hm)

theorem unclashing_of_build (h : Registry.build decls = .ok reg) : ∀ m ∈ reg.models, Unclashing m := by
  obtain ⟨settled, hb, hattached⟩ := attached_of_build h
  refine unclashing_of_foldlM hattached ?_ fun m hm => ?_
  · have hnames := hb.nodup_names
    rw [hb.models, List.map_map] at hnames
    rwa [List.map_map]
  · obtain ⟨s, hs, rfl⟩ := List.mem_map.mp hm
    obtain ⟨d, key, fields, _, rfl⟩ := hb.exists_fields hs
    exact ⟨List.nodup_nil, List.disjoint_nil_right _⟩

/-! ## Names on all levels -/

/-- No field of one model has the name of a field of the other. -/
def NamesApart (lower upper : Model) : Prop :=
  List.Disjoint (lower.localFields.map Field.name) (upper.localFields.map Field.name)

theorem mem_fields {f : Field} : f ∈ reg.fields m ↔ ∃ level ∈ reg.lineage m, f ∈ level.localFields := by
  rw [fields, List.mem_flatMap]
  simp only [List.mem_reverse]

theorem nodup_names_iff (h : ∀ level ∈ reg.lineage m, Unclashing level) :
    ((reg.fields m).map Field.name).Nodup ↔
      (∀ level ∈ reg.lineage m, (level.own.map Field.name).Nodup) ∧ (reg.lineage m).Pairwise NamesApart := by
  rw [fields, List.map_flatMap, List.nodup_flatMap, List.pairwise_reverse]
  refine and_congr ?_ (List.Pairwise.iff fun lower upper => List.disjoint_comm)
  simp only [List.mem_reverse]
  exact forall₂_congr fun level hlevel => nodup_localFields_iff (h level hlevel)

/-- Every field is found under its name exactly if no two of them share one. -/
theorem found_iff :
    (∀ f ∈ reg.fields m, m.fieldName f.name = f.name → reg.field m f.name = .ok f) ↔
      ∀ f ∈ reg.fields m, ∀ g ∈ reg.fields m, m.fieldName f.name = f.name → f.name = g.name → f = g := by
  constructor
  · intro h f hf g hg hplain hname
    have hfound := h f hf hplain
    rw [hname, h g hg (hname ▸ hplain)] at hfound
    exact (Except.ok.inj hfound).symm
  · intro h f hf hplain
    obtain ⟨level, hlevel, hlocal⟩ := mem_fields.mp hf
    have hsome : (reg.field? m f.name).isSome := by
      rw [field?, List.findSome?_isSome_iff]
      exact ⟨level, hlevel, List.find?_isSome.mpr ⟨f, hlocal, beq_iff_eq.mpr hplain.symm⟩⟩
    obtain ⟨g, hg⟩ := Option.isSome_iff_exists.mp hsome
    have hname : f.name = g.name := hplain.symm.trans (name_eq_of_field? hg).symm
    rw [field_eq_ok, hg, h f hf g (mem_fields.mpr (exists_level hg)) hplain hname]

/-- What the build of a registry makes sure of for the names of each model, what it takes for all fields that a model
has to have names of their own, and what it takes for all of them to be found under their names. -/
theorem names_of_build (h : Registry.build decls = .ok reg) (hm : m ∈ reg.models) :
    Unclashing m ∧
      (((reg.fields m).map Field.name).Nodup ↔
        (∀ level ∈ reg.lineage m, (level.own.map Field.name).Nodup) ∧ (reg.lineage m).Pairwise NamesApart) ∧
      (((reg.fields m).map Field.name).Nodup →
        ∀ f ∈ reg.fields m, m.fieldName f.name = f.name → reg.field m f.name = .ok f) ∧
      ((∀ f ∈ reg.fields m, m.fieldName f.name = f.name → reg.field m f.name = .ok f) ↔
        ∀ f ∈ reg.fields m, ∀ g ∈ reg.fields m, m.fieldName f.name = f.name → f.name = g.name → f = g) := by
  have hall := unclashing_of_build h
  have hr := rooted_of_build h
  refine ⟨hall m hm, nodup_names_iff fun level hlevel => hall level (hr.mem_models hm hlevel), fun hnodup => ?_, found_iff⟩
  exact found_iff.mpr fun f hf g hg _ hname => List.inj_on_of_nodup_map hnodup hf hg hname

/-- A page has tags and a leaflet is a page. The labels of leaflets are seen from there as tags too. -/
def labelDecls : List ModelDecl :=
  [{ name := "page", fields := [.autoKey "id", .of "tags" .integer] },
    { name := "leaflet", parent := some "page", fields := [] },
    { name := "label", fields := [.autoKey "id", .of "owner" (.foreignKey "leaflet" (some "tags"))] }]

def leaflet : Model := ⟨"leaflet", some "page", "id", [], [.of "tags" (.reverseForeignKey "label" "owner")]⟩

def label : Model := ⟨"label", none, "id", [.autoKey "id", .of "owner" (.foreignKey "leaflet" (some "tags"))], []⟩

def labels : Registry := ⟨[⟨"page", none, "id", [.autoKey "id", .of "tags" .integer], []⟩, leaflet, label]⟩

theorem names_of_label :
    Registry.build labelDecls = .ok labels ∧ label ∈ labels.models ∧
      ∀ f ∈ labels.fields label, label.fieldName f.name = f.name → labels.field label f.name = .ok f := by
  have hbuild : Registry.build labelDecls = .ok labels := rfl
  have hmem : label ∈ labels.models := by decide
  exact ⟨hbuild, hmem, (names_of_build hbuild hmem).2.2.1 (by decide)⟩

/-- The other side of the labels hides the tags of the page. -/
theorem tags_hidden :
    Registry.build labelDecls = .ok labels ∧ leaflet ∈ labels.models ∧
      .of "tags" .integer ∈ labels.fields leaflet ∧
      labels.field leaflet "tags" = .ok (.of "tags" (.reverseForeignKey "label" "owner")) ∧
      ¬ ((labels.fields leaflet).map Field.name).Nodup := by
  exact ⟨rfl, by decide, by decide, rfl, by decide⟩

end RecordMapper.Registry
