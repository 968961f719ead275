import Mathlib.Data.List.Perm.Subperm
import Mathlib.Logic.Relation
import RecordMapper.Proofs.Registry.Keys

/-!
# Inheritance — parents that end, and parents that go round

Declarations may name each other as parents in any way. Going up from a
declaration either ends at one without a parent or runs into a circle
(`Circles`), and as many steps as there are declarations tell which
(`topDecl?_eq_none_iff`): a longer walk would come to some name twice.
A registry is built in the first case only, and then every lineage ends,
comes to no model twice, and has one primary key.
-/

namespace RecordMapper.Registry

open Relation

/-- The declaration of the first name has the second as its parent. -/
def Extends (decls : List ModelDecl) (child parent : String) : Prop :=
  ∃ d ∈ decls, d.name = child ∧ d.parent = some parent

/-- Going from parent to parent leads from a name to one that is its own ancestor. -/
def Circles (decls : List ModelDecl) (name : String) : Prop :=
  ∃ c, ReflTransGen (Extends decls) name c ∧ TransGen (Extends decls) c c

variable {decls : List ModelDecl} {d : ModelDecl}

/-! ## Circles among declarations -/

/-- Whoever runs into a circle has a parent that does. -/
theorem Circles.parent (hnames : (decls.map ModelDecl.name).Nodup) (hd : d ∈ decls) (h : Circles decls d.name) :
    ∃ p, d.parent = some p ∧ Circles decls p := by
  obtain ⟨c, hreach, hround⟩ := h
  obtain ⟨p, ⟨d', hd', hname, hparent⟩, hp⟩ : ∃ p, Extends decls d.name p ∧ Circles decls p := by
    rcases hreach.cases_head with rfl | ⟨p, hstep, hrest⟩
    · obtain ⟨p, hstep, hrest⟩ := TransGen.head'_iff.mp hround
      exact ⟨p, hstep, _, hrest, hround⟩
    · exact ⟨p, hstep, c, hrest, hround⟩
  obtain rfl := List.inj_on_of_nodup_map hnames hd' hd hname
  exact ⟨p, hparent, hp⟩

theorem declOf?_eq_some {name : String} (h : declOf? decls name = some d) : d ∈ decls ∧ d.name = name :=
  ⟨List.mem_of_find?_eq_some h, by simpa using List.find?_some h⟩

/-- However many steps it takes, going round finds no top. -/
theorem topDecl?_of_circles (hnames : (decls.map ModelDecl.name).Nodup) (hd : d ∈ decls) (h : Circles decls d.name)
    (steps : Nat) : topDecl? decls steps d = none := by
  induction steps generalizing d with
  | zero => rfl
  | succ steps ih =>
      obtain ⟨p, hparent, hp⟩ := h.parent hnames hd
      simp only [topDecl?, hparent]
      cases hdp : declOf? decls p with
      | none => rfl
      | some dp =>
          obtain ⟨hmem, rfl⟩ := declOf?_eq_some hdp
          exact ih hmem hp

/-- A search for the top that has not ended has gone from parent to parent all the time. -/
theorem exists_walk (hparents : ∀ d ∈ decls, ∀ p, d.parent = some p → (declOf? decls p).isSome) (hd : d ∈ decls)
    {steps : Nat} (h : topDecl? decls steps d = none) :
    ∃ walk, walk.length = steps ∧ walk ⊆ decls.map ModelDecl.name ∧ List.IsChain (Extends decls) (d.name :: walk) := by
  induction steps generalizing d with
  | zero => exact ⟨[], rfl, List.nil_subset _, .singleton _⟩
  | succ steps ih =>
      rw [topDecl?] at h
      split at h
      · cases h
      · rename_i p hparent
        obtain ⟨dp, hdp⟩ := Option.isSome_iff_exists.mp (hparents d hd p hparent)
        rw [hdp, Option.bind_some] at h
        obtain ⟨hmem, rfl⟩ := declOf?_eq_some hdp
        obtain ⟨walk, hlength, hsubset, hchain⟩ := ih hmem h
        exact ⟨dp.name :: walk, congrArg Nat.succ hlength,
          List.cons_subset.mpr ⟨List.mem_map_of_mem hmem, hsubset⟩, .cons_cons ⟨d, hd, rfl, hparent⟩ hchain⟩

/-- A walk that has more names than there are comes to one of them twice. -/
theorem circles_of_walk {name : String} {walk : List String} (hchain : List.IsChain (Extends decls) (name :: walk))
    (hsubset : walk ⊆ decls.map ModelDecl.name) (hlong : decls.length < walk.length) : Circles decls name := by
  by_contra hno
  have hpairs := List.isChain_iff_pairwise.mp (hchain.imp fun _ _ => TransGen.single)
  obtain ⟨hfrom, hwithin⟩ := List.pairwise_cons.mp hpairs
  have hnodup : walk.Nodup := by
    refine hwithin.imp_of_mem fun {a b} ha _ hab heq => hno ⟨a, (hfrom a ha).to_reflTransGen, ?_⟩
    rwa [← heq] at hab
  have hshort := (List.Nodup.subperm hnodup hsubset).length_le
  rw [List.length_map] at hshort
  omega

/-- As many steps as there are declarations find the top, unless the parents go round. -/
theorem topDecl?_eq_none_iff (hnames : (decls.map ModelDecl.name).Nodup)
    (hparents : ∀ d ∈ decls, ∀ p, d.parent = some p → (declOf? decls p).isSome) (hd : d ∈ decls) :
    topDecl? decls (decls.length + 1) d = none ↔ Circles decls d.name := by
  refine ⟨fun h => ?_, fun h => topDecl?_of_circles hnames hd h _⟩
  obtain ⟨walk, hlength, hsubset, hchain⟩ := exists_walk hparents hd h
  exact circles_of_walk hchain hsubset (by omega)

/-! ## How a build fails -/

/-- A failure that declarations are to blame for. -/
def Configured (f : Failure) : Prop := ∃ reason, f = .configuration reason

/-- A failure of a build. A field that a linking model lacks is reported as missing. -/
def Refused (f : Failure) : Prop := Configured f ∨ ∃ model field, f = .fieldNotFound model field

theorem keyName_meets (decls : List ModelDecl) (d : ModelDecl) :
    (keyName decls d).Meets (fun _ => True) Configured := by
  rw [keyName]
  split
  · exact ⟨_, rfl⟩
  · split
    · split
      · exact ⟨_, rfl⟩
      · trivial
    · exact ⟨_, rfl⟩

theorem settleField_meets (decls : List ModelDecl) (owner : String) (f : Field) :
    (settleField decls owner f).Meets (fun _ => True) Configured := by
  rw [settleField]
  split
  · trivial
  · split
    · exact ⟨_, rfl⟩
    · trivial

theorem settleModel_meets (decls : List ModelDecl) (d : ModelDecl) (key : String) :
    (settleModel decls d key).Meets (fun _ => True) Configured :=
  (Outcome.Meets.mapM fun f _ => settleField_meets decls d.name f).bind fun _ _ => trivial

theorem attach_meets (models : List Model) (target : String) (f : Field) :
    (attach models target f).Meets (fun _ => True) Configured := by
  rw [attach]
  split
  · trivial
  · split
    · exact ⟨_, rfl⟩
    · trivial

theorem checkLink_meets (reg : Registry) (through link expected : String) :
    (checkLink reg through link expected).Meets (fun _ => True) Refused := by
  have hmodel : (reg.model through).Meets (fun _ => True) Refused := by
    rw [model]
    split
    · trivial
    · exact .inl ⟨_, rfl⟩
  have hfield : ∀ m, (reg.field m link).Meets (fun _ => True) Refused := fun m => by
    rw [field]
    split
    · trivial
    · exact .inr ⟨_, _, rfl⟩
  refine hmodel.bind fun m _ => (hfield m).bind fun f _ => ?_
  split
  · split
    · trivial
    · exact .inl ⟨_, rfl⟩
  · exact .inl ⟨_, rfl⟩

theorem checkThrough_meets (reg : Registry) (m : Model) (f : Field) :
    (reg.checkThrough m f).Meets (fun _ => True) Refused := by
  rw [checkThrough]
  split
  · exact (checkLink_meets ..).bind fun _ _ => checkLink_meets ..
  · trivial

/-- Unless declarations are refused at once, their names are distinct, all their keys have names, and the build is
refused later or not at all. -/
theorem build_cases (decls : List ModelDecl) :
    (∃ reason, Registry.build decls = .error (.configuration reason)) ∨
      (decls.map ModelDecl.name).Nodup ∧ (∀ d ∈ decls, ∃ key, keyName decls d = .ok key) ∧
        (Registry.build decls).Meets (fun _ => True) Refused := by
  unfold Registry.build
  simp only []
  split
  · exact .inl ⟨_, rfl⟩
  · rename_i hrepeated
    have hnone : repeated? [] (decls.map ModelDecl.name) = none := by
      rw [Option.eq_none_iff_forall_ne_some]
      exact hrepeated
    generalize hlook : (forIn decls PUnit.unit _ : Outcome PUnit) = looked
    have hlooked : looked.Meets (fun _ => True) Configured := by
      rw [← hlook]
      refine Outcome.Meets.forIn fun d _ => ?_
      split
      · split
        · exact ⟨_, rfl⟩
        · trivial
      · trivial
    cases looked with
    | error f =>
        obtain ⟨reason, rfl⟩ := hlooked
        exact .inl ⟨reason, rfl⟩
    | ok _ =>
        have hkeyed := Outcome.Meets.mapM fun d (_ : d ∈ decls) => keyName_meets decls d
        rw [Outcome.ok_bind]
        cases hkeys : decls.mapM (keyName decls) with
        | error f =>
            rw [hkeys] at hkeyed
            obtain ⟨reason, rfl⟩ := hkeyed
            exact .inl ⟨reason, rfl⟩
        | ok keys =>
            refine .inr ⟨(repeated?_eq_none hnone).1, fun d hd => ?_, ?_⟩
            · obtain ⟨key, _, hkey⟩ := Outcome.exists_of_mapM hkeys hd
              exact ⟨key, hkey⟩
            rw [Outcome.ok_bind]
            refine ((Outcome.Meets.mapM fun s _ => settleModel_meets ..).imp_failure fun _ => .inl).bind fun settled _ => ?_
            refine ((Outcome.Meets.foldlM (fun s _ models _ => attach_meets ..) trivial).imp_failure
              fun _ => .inl).bind fun models _ => ?_
            refine (Outcome.Meets.forIn fun m _ => ?_).bind fun _ _ => trivial
            refine (Outcome.Meets.forIn fun f _ => ?_).bind fun _ _ => trivial
            exact (checkThrough_meets ..).bind fun _ _ => trivial

/-- Declarations whose parents go round are refused. -/
theorem build_of_circles {name : String} (h : TransGen (Extends decls) name name) :
    ∃ reason, Registry.build decls = .error (.configuration reason) := by
  rcases build_cases decls with hrefused | ⟨hnames, hkeys, _⟩
  · exact hrefused
  · obtain ⟨_, ⟨d, hd, rfl, _⟩, _⟩ := TransGen.head'_iff.mp h
    obtain ⟨key, hkey⟩ := hkeys d hd
    rw [keyName, topDecl?_of_circles hnames hd ⟨_, .refl, h⟩] at hkey
    cases hkey

theorem build_meets (decls : List ModelDecl) : (Registry.build decls).Meets (fun _ => True) Refused := by
  rcases build_cases decls with ⟨reason, hrefused⟩ | ⟨_, _, h⟩
  · rw [hrefused]
    exact .inl ⟨reason, rfl⟩
  · exact h

/-! ## What a registry inherits -/

namespace Rooted

variable {reg : Registry} {m p : Model}

/-- The lineage of an ancestor is shorter. -/
theorem lineage_of_ancestor (h : Rooted reg) (hm : m ∈ reg.models)
    (hp : TransGen (fun m p => reg.parent? m = some p) m p) :
    p ∈ reg.models ∧ (reg.lineage p).length < (reg.lineage m).length := by
  induction hp with
  | single hstep =>
      rw [h.lineage_of_parent hm hstep]
      exact ⟨(parent?_eq_some hstep).2, Nat.lt_succ_self _⟩
  | tail _ hstep ih =>
      obtain ⟨hmem, hlength⟩ := ih
      rw [h.lineage_of_parent hmem hstep, List.length_cons] at hlength
      exact ⟨(parent?_eq_some hstep).2, by omega⟩

/-- No model is its own ancestor. -/
theorem acyclic (h : Rooted reg) (hm : m ∈ reg.models) : ¬ TransGen (fun m p => reg.parent? m = some p) m m :=
  fun hround => Nat.lt_irrefl _ (h.lineage_of_ancestor hm hround).2

end Rooted

variable {settled : List (Model × List (String × Field))} {reg : Registry} {m : Model}

/-- In a lineage there is one primary key, and the keys of all its models are named for it. -/
theorem BuiltFrom.lineage_key (h : BuiltFrom decls settled reg) (hm : m ∈ reg.models) :
    ∃ key, ((reg.lineage m).flatMap Model.own).filter Field.primaryKey = [key] ∧
      ∀ level ∈ reg.lineage m, level.pkName = key.name := by
  have hchain := h.rooted.chain m hm
  generalize reg.lineage m = l at hchain
  induction hchain with
  | @top m hp =>
      obtain ⟨key, hsole, hname⟩ := h.sole_key hm hp
      refine ⟨key, by rw [List.flatMap_singleton, hsole], fun level hl => ?_⟩
      rw [List.mem_singleton.mp hl, hname]
  | @under m p above hp hrest ih =>
      obtain ⟨key, hsole, hname⟩ := ih (parent?_eq_some hp).2
      have hnone : m.own.filter Field.primaryKey = [] := List.filter_eq_nil_iff.mpr fun f hf hkey => by
        have hparent := (h.of_primaryKey hm hf hkey).1
        rw [(parent?_eq_some hp).1] at hparent
        cases hparent
      refine ⟨key, by rw [List.flatMap_cons, List.filter_append, hnone, hsole, List.nil_append], ?_⟩
      refine List.forall_mem_cons.mpr ⟨?_, hname⟩
      have hmem : p ∈ above := by cases hrest <;> exact List.mem_cons_self
      rw [h.pkName_parent hm hp, hname p hmem]

/-- Whatever is declared, a build ends with a registry or a refusal. In a registry no model is its own ancestor: each
lineage goes up to a model without a parent, has no name twice and shares one primary key. Declarations whose parents
go round are refused as badly configured, and as many steps as there are declarations tell exactly which ones do. -/
theorem inheritance_of_build (decls : List ModelDecl) :
    (∀ reg, Registry.build decls = .ok reg → ∀ m ∈ reg.models,
      ¬ TransGen (fun m p => reg.parent? m = some p) m m ∧
        Chain reg m (reg.lineage m) ∧ ((reg.lineage m).map Model.name).Nodup ∧ (reg.rootOf m).parent = none ∧
          ∃ key, ((reg.lineage m).flatMap Model.own).filter Field.primaryKey = [key] ∧
            ∀ level ∈ reg.lineage m, level.pkName = key.name) ∧
      (∀ name, TransGen (Extends decls) name name →
        ∃ reason, Registry.build decls = .error (.configuration reason)) ∧
      (Registry.build decls).Meets (fun _ => True) Refused ∧
      ((decls.map ModelDecl.name).Nodup → (∀ d ∈ decls, ∀ p, d.parent = some p → (declOf? decls p).isSome) →
        ∀ d ∈ decls, (topDecl? decls (decls.length + 1) d = none ↔ Circles decls d.name)) := by
  refine ⟨fun reg h m hm => ?_, fun name => build_of_circles, build_meets decls,
    fun hnames hparents d => topDecl?_eq_none_iff hnames hparents⟩
  obtain ⟨settled, hb⟩ := builtFrom_of_build h
  have hr := hb.rooted
  exact ⟨hr.acyclic hm, hr.chain m hm, hr.nodup_lineage hm, hr.rootOf_parent hm, hb.lineage_key hm⟩

/-- Three models that inherit from each other, the one at the top declared last. -/
def familyDecls : List ModelDecl :=
  [{ name := "pupil", parent := some "person", fields := [] },
    { name := "person", parent := some "being", fields := [] },
    { name := "being", fields := [.autoKey "id"] }]

def family : Registry :=
  ⟨[⟨"pupil", some "person", "id", [], []⟩, ⟨"person", some "being", "id", [], []⟩,
    ⟨"being", none, "id", [.autoKey "id"], []⟩]⟩

/-- Two models that inherit from each other. -/
def ringDecls : List ModelDecl :=
  [{ name := "hen", parent := some "egg", fields := [.autoKey "id"] }, { name := "egg", parent := some "hen", fields := [] }]

theorem inheritance_of_family :
    Registry.build familyDecls = .ok family ∧
      (∀ m ∈ family.models, Chain family m (family.lineage m) ∧
        ∃ key, ((family.lineage m).flatMap Model.own).filter Field.primaryKey = [key] ∧
          ∀ level ∈ family.lineage m, level.pkName = key.name) ∧
      TransGen (Extends ringDecls) "hen" "hen" ∧
      ∃ reason, Registry.build ringDecls = .error (.configuration reason) := by
  have hfamily : Registry.build familyDecls = .ok family := rfl
  have hring : TransGen (Extends ringDecls) "hen" "hen" :=
    .tail (.single ⟨_, List.mem_cons_self, rfl, rfl⟩) ⟨_, List.mem_cons_of_mem _ List.mem_cons_self, rfl, rfl⟩
  refine ⟨hfamily, fun m hm => ?_, hring, (inheritance_of_build ringDecls).2.1 "hen" hring⟩
  obtain ⟨_, hchain, _, _, hkey⟩ := (inheritance_of_build familyDecls).1 family hfamily m hm
  exact ⟨hchain, hkey⟩

end RecordMapper.Registry
