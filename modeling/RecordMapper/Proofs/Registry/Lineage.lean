import Mathlib.Data.List.Nodup
import RecordMapper.Proofs.Registry.Built

/-!
# Registry — inheritance of a built registry

In a built registry the ancestors of a model form a chain that ends at a
model without a parent (`Chain`), and `lineage` is that chain. What the
rest needs about inheritance follows by induction on chains: the lineage
of an ancestor is a suffix of the lineage below it, and only the last
model of a lineage has no parent.
-/

namespace RecordMapper.Registry

/-- The model and its ancestors up to one without a parent, nearest first. -/
inductive Chain (reg : Registry) : Model → List Model → Prop where
  | top {m : Model} (h : m.parent = none) : Chain reg m [m]
  | under {m p : Model} {above : List Model} (h : reg.parent? m = some p) (rest : Chain reg p above) :
      Chain reg m (m :: above)

/-- A registry whose names are distinct and whose lineages are chains. -/
structure Rooted (reg : Registry) : Prop where
  names : (reg.models.map Model.name).Nodup
  chain : ∀ m ∈ reg.models, Chain reg m (reg.lineage m)

/-- Among models of distinct names each is found under its name. -/
theorem find?_of_nodup_names {models : List Model} (hnames : (models.map Model.name).Nodup) {m : Model} (hm : m ∈ models) :
    models.find? (·.name == m.name) = some m := by
  have hsome : (models.find? (·.name == m.name)).isSome := List.find?_isSome.mpr ⟨m, hm, beq_self_eq_true m.name⟩
  obtain ⟨m', hm'⟩ := Option.isSome_iff_exists.mp hsome
  have hn : m'.name = m.name := by simpa using List.find?_some hm'
  rw [hm', List.inj_on_of_nodup_map hnames (List.mem_of_find?_eq_some hm') hm hn]

theorem parent?_eq_some {reg : Registry} {m p : Model} (h : reg.parent? m = some p) :
    m.parent = some p.name ∧ p ∈ reg.models := by
  rw [parent?, Option.bind_eq_some_iff] at h
  obtain ⟨name, hname, hp⟩ := h
  have hn : p.name = name := by simpa using List.find?_some hp
  exact ⟨hn ▸ hname, List.mem_of_find?_eq_some hp⟩

theorem parent?_eq_none_of_parent {reg : Registry} {m : Model} (h : m.parent = none) :
    reg.parent? m = none := by
  rw [parent?, h]
  rfl

/-! ## Chains -/

namespace Chain

variable {reg : Registry} {m level : Model} {l : List Model}

theorem unique {l' : List Model} (h : Chain reg m l) (h' : Chain reg m l') : l = l' := by
  induction h generalizing l' with
  | top hp =>
      cases h' with
      | top _ => rfl
      | under hq _ => rw [parent?_eq_none_of_parent hp] at hq; cases hq
  | under hp _ ih =>
      cases h' with
      | top hq => rw [parent?_eq_none_of_parent hq] at hp; cases hp
      | under hq hrest =>
          rw [hp] at hq
          cases hq
          rw [ih hrest]

/-- Every model of a chain has a chain of its own, a suffix of it. -/
theorem suffix (h : Chain reg m l) (hl : level ∈ l) : ∃ l', Chain reg level l' ∧ l' <:+ l := by
  induction h with
  | top hp =>
      rw [List.mem_singleton] at hl
      subst hl
      exact ⟨_, .top hp, List.suffix_refl _⟩
  | under hp hrest ih =>
      rcases List.mem_cons.mp hl with rfl | hl
      · exact ⟨_, .under hp hrest, List.suffix_refl _⟩
      · obtain ⟨l', hc, hs⟩ := ih hl
        exact ⟨l', hc, hs.trans (List.suffix_cons _ _)⟩

theorem mem_models (h : Chain reg m l) (hm : m ∈ reg.models) : ∀ level ∈ l, level ∈ reg.models := by
  induction h with
  | top _ => simpa using hm
  | under hp _ ih =>
      intro level hl
      rcases List.mem_cons.mp hl with rfl | hl
      · exact hm
      · exact ih (parent?_eq_some hp).2 level hl

/-- The one model of a chain without a parent is the last. -/
theorem getLastD_of_parent (h : Chain reg m l) (hl : level ∈ l) (hp : level.parent = none) (d : Model) :
    l.getLastD d = level := by
  induction h generalizing d with
  | top _ => simpa using (List.mem_singleton.mp hl).symm
  | under hq hrest ih =>
      rcases List.mem_cons.mp hl with rfl | hl
      · rw [parent?_eq_none_of_parent hp] at hq
        cases hq
      · rw [List.getLastD_cons]
        exact ih hl _

theorem getLastD_parent (h : Chain reg m l) (d : Model) : (l.getLastD d).parent = none := by
  induction h generalizing d with
  | top hp => simpa using hp
  | under _ _ ih =>
      rw [List.getLastD_cons]
      exact ih _

end Chain

/-! ## The chain of a built registry -/

theorem chain_of_topDecl? {decls : List ModelDecl} {settled : List (Model × List (String × Field))}
    {reg : Registry} (h : BuiltFrom decls settled reg) {steps : Nat} {d top : ModelDecl} {m : Model}
    (hp : m.parent = d.parent) (htop : topDecl? decls (steps + 1) d = some top) :
    Chain reg m (reg.ancestry steps m) := by
  induction steps generalizing d m with
  | zero =>
      rw [topDecl?] at htop
      split at htop
      · rename_i hd
        exact .top (hp.trans hd)
      · rw [Option.bind_eq_some_iff] at htop
        obtain ⟨_, _, hnone⟩ := htop
        cases hnone
  | succ steps ih =>
      rw [topDecl?] at htop
      split at htop
      · rename_i hd
        rw [ancestry, parent?_eq_none_of_parent (hp.trans hd)]
        exact .top (hp.trans hd)
      · rename_i p hd
        rw [Option.bind_eq_some_iff] at htop
        obtain ⟨dp, hdp, htop⟩ := htop
        obtain ⟨mp, hmp, hpp⟩ := h.find?_of_declOf? hdp
        have hparent : reg.parent? m = some mp := by
          rw [parent?, hp, hd]
          exact hmp
        rw [ancestry, hparent]
        exact .under hparent (ih hpp htop)

theorem BuiltFrom.rooted {decls : List ModelDecl} {settled : List (Model × List (String × Field))}
    {reg : Registry} (h : BuiltFrom decls settled reg) : Rooted reg := by
  refine ⟨h.nodup_names, ?_⟩
  intro m hm
  obtain ⟨d, _, _, hparent, hkey⟩ := h.exists_decl hm
  rw [keyName] at hkey
  split at hkey
  · cases hkey
  · rename_i top htop
    rw [lineage, h.length_eq]
    exact chain_of_topDecl? h hparent htop

theorem rooted_of_build {decls : List ModelDecl} {reg : Registry} (h : Registry.build decls = .ok reg) :
    Rooted reg := by
  obtain ⟨_, hb⟩ := builtFrom_of_build h
  exact hb.rooted

/-! ## Lineages -/

theorem self_mem_lineage (reg : Registry) (m : Model) : m ∈ reg.lineage m := by
  rw [lineage]
  cases reg.models.length with
  | zero => exact List.mem_singleton.mpr rfl
  | succ steps =>
      rw [ancestry]
      split <;> exact List.mem_cons_self

/-- A model without a parent stands alone in its lineage. -/
theorem lineage_of_top (reg : Registry) {m : Model} (h : m.parent = none) : reg.lineage m = [m] := by
  rw [lineage]
  cases reg.models.length with
  | zero => rfl
  | succ steps => rw [ancestry, parent?_eq_none_of_parent h]

theorem rootOf_of_top (reg : Registry) {m : Model} (h : m.parent = none) : reg.rootOf m = m := by
  rw [rootOf, reg.lineage_of_top h]
  rfl

theorem rootOf_mem_lineage (reg : Registry) (m : Model) : reg.rootOf m ∈ reg.lineage m := by
  have hself := reg.self_mem_lineage m
  rw [rootOf]
  generalize reg.lineage m = levels at hself
  cases levels with
  | nil => cases hself
  | cons level rest =>
      rw [List.getLastD_cons]
      exact List.getLastD_mem_cons

namespace Rooted

variable {reg : Registry} {m level : Model}

/-- A name stands for one model. -/
theorem eq_of_name (h : Rooted reg) {m' : Model} (hm : m ∈ reg.models) (hm' : m' ∈ reg.models)
    (hn : m.name = m'.name) : m = m' :=
  List.inj_on_of_nodup_map h.names hm hm' hn

theorem find?_name (h : Rooted reg) (hm : m ∈ reg.models) : reg.find? m.name = some m :=
  find?_of_nodup_names h.names hm

theorem lineage_eq_cons (h : Rooted reg) (hm : m ∈ reg.models) :
    ∃ above, reg.lineage m = m :: above := by
  have hc := h.chain m hm
  generalize reg.lineage m = l at hc
  cases hc with
  | top _ => exact ⟨[], rfl⟩
  | under _ _ => exact ⟨_, rfl⟩

theorem mem_models (h : Rooted reg) (hm : m ∈ reg.models) (hl : level ∈ reg.lineage m) :
    level ∈ reg.models :=
  (h.chain m hm).mem_models hm level hl

theorem lineage_suffix (h : Rooted reg) (hm : m ∈ reg.models) (hl : level ∈ reg.lineage m) :
    reg.lineage level <:+ reg.lineage m := by
  obtain ⟨l', hc, hs⟩ := (h.chain m hm).suffix hl
  rwa [(h.chain level (h.mem_models hm hl)).unique hc]

theorem lineage_trans (h : Rooted reg) (hm : m ∈ reg.models) (hl : level ∈ reg.lineage m)
    {upper : Model} (hu : upper ∈ reg.lineage level) : upper ∈ reg.lineage m :=
  (h.lineage_suffix hm hl).subset hu

theorem lineage_of_parent (h : Rooted reg) (hm : m ∈ reg.models) {p : Model}
    (hp : reg.parent? m = some p) : reg.lineage m = m :: reg.lineage p := by
  have hc := h.chain m hm
  generalize reg.lineage m = l at hc
  cases hc with
  | top hn => rw [parent?_eq_none_of_parent hn] at hp; cases hp
  | under hq hrest =>
      rw [hp] at hq
      cases hq
      rw [(h.chain p (parent?_eq_some hp).2).unique hrest]

/-- A model is no ancestor of its parent. -/
theorem not_mem_lineage_parent (h : Rooted reg) (hm : m ∈ reg.models) {p : Model}
    (hp : reg.parent? m = some p) : m ∉ reg.lineage p := by
  intro hmem
  have hlen := (h.lineage_suffix (parent?_eq_some hp).2 hmem).length_le
  rw [h.lineage_of_parent hm hp, List.length_cons] at hlen
  omega

theorem nodup_lineage (h : Rooted reg) (hm : m ∈ reg.models) : ((reg.lineage m).map Model.name).Nodup := by
  have hall : ∀ {m l}, Chain reg m l → m ∈ reg.models → (l.map Model.name).Nodup := by
    intro m l hc hm
    induction hc with
    | top _ => simp
    | under hp hrest ih =>
        have hpm := (parent?_eq_some hp).2
        rw [List.map_cons, List.nodup_cons]
        refine ⟨fun hmem => ?_, ih hpm⟩
        obtain ⟨upper, hu, hn⟩ := List.mem_map.mp hmem
        obtain rfl := h.eq_of_name (hrest.mem_models hpm upper hu) hm hn
        rw [hrest.unique (h.chain _ hpm)] at hu
        exact h.not_mem_lineage_parent hm hp hu
  exact hall (h.chain m hm) hm

theorem parent_mem_lineage (h : Rooted reg) (hm : m ∈ reg.models) {p : Model}
    (hp : reg.parent? m = some p) : p ∈ reg.lineage m := by
  rw [h.lineage_of_parent hm hp]
  exact List.mem_cons_of_mem _ (reg.self_mem_lineage p)

theorem rootOf_of_parent (h : Rooted reg) (hm : m ∈ reg.models) (hl : level ∈ reg.lineage m)
    (hp : level.parent = none) : reg.rootOf m = level :=
  (h.chain m hm).getLastD_of_parent hl hp m

theorem rootOf_of_no_parent (h : Rooted reg) (hm : m ∈ reg.models) (hp : reg.parent? m = none) : reg.rootOf m = m := by
  have hc := h.chain m hm
  rw [rootOf]
  generalize reg.lineage m = l at hc
  cases hc with
  | top _ => rfl
  | under hq _ => rw [hp] at hq; cases hq

theorem rootOf_mem_models (h : Rooted reg) (hm : m ∈ reg.models) : reg.rootOf m ∈ reg.models :=
  h.mem_models hm (reg.rootOf_mem_lineage m)

theorem rootOf_parent (h : Rooted reg) (hm : m ∈ reg.models) : (reg.rootOf m).parent = none :=
  (h.chain m hm).getLastD_parent m

/-- All models of a lineage have the same top. -/
theorem rootOf_of_mem_lineage (h : Rooted reg) (hm : m ∈ reg.models) (hl : level ∈ reg.lineage m) :
    reg.rootOf level = reg.rootOf m := by
  have hlevel := h.mem_models hm hl
  exact (h.rootOf_of_parent hm (h.lineage_trans hm hl (reg.rootOf_mem_lineage level))
    (h.rootOf_parent hlevel)).symm

end Rooted

end RecordMapper.Registry
