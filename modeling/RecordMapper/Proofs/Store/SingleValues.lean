import RecordMapper.Proofs.Database.Constraints
import RecordMapper.Proofs.Read.Fetched
import RecordMapper.Proofs.Registry.Names
import RecordMapper.Proofs.Store.Tracked
import RecordMapper.Proofs.Value.Hashing

/-!
# Single values — paths that do not fan out

A path that resolves can be followed from the row of any key, because
each of its steps finds what it looks up once more: the relation on the
other side and the model whose rows link (`Followable`). The rows that
are followed stay one at most as long as no step is to many: a column
leads to one value, and the other side of a one-to-one relation to the
rows of a unique column, of which no two hold values equal to one key
(`length_step_le_one`). So columns of such paths give every selected row
one record.

A field that a model declares as the other side of a relation which
there is not cannot be followed. And a table can hold two keys that are
equal but written differently: both are rows of one key when the other
side of a relation looks for it.
-/

namespace RecordMapper

open Registry

variable {decls : List ModelDecl} {reg : Registry} {st : Store} {m : Model} {f : Field} {name path : String}
  {names : List String} {steps : List PathStep} {p : ResolvedPath} {key pk : Value} {keys vs : List Value}
  {named : Named} {columns : List SelectColumn} {records : List Record} {qs : Queryset}

/-! ## Following -/

namespace Registry

/-- The fields visible on a model have names of their own, none of them the one that stands for the primary key. -/
def DistinctlyNamed (reg : Registry) : Prop :=
  ∀ m ∈ reg.models, ((reg.fields m).map Field.name).Nodup ∧ "pk" ∉ (reg.fields m).map Field.name

instance (reg : Registry) : Decidable (DistinctlyNamed reg) :=
  inferInstanceAs (Decidable (∀ m ∈ reg.models,
    ((reg.fields m).map Field.name).Nodup ∧ "pk" ∉ (reg.fields m).map Field.name))

/-- A registry in which a step finds what it looks up: fields by their names, and models that link. -/
structure Followable (reg : Registry) : Prop extends Paired reg where
  found : ∀ m ∈ reg.models, ∀ f ∈ m.localFields, reg.field m f.name = .ok f
  links : ∀ m ∈ reg.models, ∀ f ∈ m.own, ∀ target through own other relatedName,
    f.type = .manyToMany target through own other relatedName → ∃ links, reg.model through = .ok links

theorem followable_of_build (hb : Registry.build decls = .ok reg) (hnames : DistinctlyNamed reg)
    (hs : SidesAreDeclared reg) : Followable reg := by
  obtain ⟨settled, h⟩ := builtFrom_of_build hb
  refine { h.paired hs with found := fun m hm f hf => ?_, links := fun m hm f hf _ _ _ _ _ ht => ?_ }
  · have hmem : f ∈ reg.fields m := mem_fields.mpr ⟨m, reg.self_mem_lineage m, hf⟩
    have hplain : m.fieldName f.name = f.name := by
      rw [Model.fieldName, if_neg]
      intro hpk
      exact (hnames m hm).2 (List.mem_map.mpr ⟨f, hmem, eq_of_beq hpk⟩)
    exact found_iff.mpr (fun g hg g' hg' _ hname => List.inj_on_of_nodup_map (hnames m hm).1 hg hg' hname) f hmem hplain
  · obtain ⟨links, hlinks, _⟩ := h.exists_links hm hf ht
    exact ⟨links, hlinks⟩

namespace Followable

variable (h : Followable reg) (hm : m ∈ reg.models)
include h hm

/-- A field that is found is that of a model, and declared there unless it is the other side of a relation. -/
theorem exists_level_own (hf : reg.field m name = .ok f) (hr : f.isReverse = false) :
    ∃ level ∈ reg.models, f ∈ level.own := by
  obtain ⟨level, hlevel, hmem⟩ := exists_level (field_eq_ok.mp hf)
  have hmodel := h.rooted.mem_models hm hlevel
  exact ⟨level, hmodel, h.mem_own hmodel hmem hr⟩

/-- A field that is the other side of a relation names a model that is found, and the relation is found there. -/
theorem exists_relation (hf : reg.field m name = .ok f) (hr : f.isReverse) :
    ∃ owner ∈ reg.models, ∃ g ∈ owner.own, ∃ level : Model, OtherSide owner.name g level.name f ∧
      reg.model owner.name = .ok owner ∧ reg.field owner g.name = .ok g := by
  obtain ⟨level, hlevel, hmem⟩ := exists_level (field_eq_ok.mp hf)
  obtain ⟨owner, howner, g, hg, hside⟩ := h.exists_owner (h.rooted.mem_models hm hlevel) hmem hr
  have hmodel : reg.model owner.name = .ok owner := by rw [model, h.rooted.find?_name howner]
  exact ⟨owner, howner, g, hg, level, hside, hmodel, h.found owner howner g (List.mem_append_left _ hg)⟩

/-- A step over the other side of a one-to-one relation leads to the rows that hold the key in its column. -/
theorem step_reverseOneToOne {owner field : String} (hf : reg.field m name = .ok f)
    (ht : f.type = .reverseOneToOne owner field) (st : Store) (key : Value) :
    ∃ r ∈ reg.models, ∃ g ∈ r.own, g.type.name = "o2o" ∧ g.isConcrete ∧
      Store.step reg st m f key = .ok (Store.referencing reg st r g.name key) := by
  obtain ⟨r, hr, g, hg, level, hside, hmodel, _⟩ := h.exists_relation hm hf (by rw [Field.isReverse, ht])
  unfold OtherSide at hside
  split at hside
  case h_2 hgt =>
    refine ⟨r, hr, g, hg, by rw [hgt]; rfl, by rw [Field.isConcrete, hgt]; rfl, ?_⟩
    rw [Store.step, hside.2]
    simp only [hmodel, Outcome.ok_bind]
    rfl
  case h_4 => exact hside.elim
  all_goals
    rw [ht] at hside
    cases hside.2

/-- What is found can be stepped over from any key. -/
theorem exists_step (hf : reg.field m name = .ok f) (st : Store) (key : Value) :
    ∃ vs, Store.step reg st m f key = .ok vs := by
  cases hr : f.isReverse with
  | false =>
      obtain ⟨level, hlevel, hown⟩ := h.exists_level_own hm hf hr
      cases ht : f.type with
      | manyToMany target through own other relatedName =>
          obtain ⟨links, hlinks⟩ := h.links level hlevel f hown _ _ _ _ _ ht
          exact ⟨_, by rw [Store.step, ht]; exact Store.linked_eq hlinks key⟩
      | reverseForeignKey | reverseOneToOne | reverseManyToMany =>
          rw [Field.isReverse, ht] at hr
          cases hr
      | _ => exact ⟨_, by rw [Store.step, ht]⟩
  | true =>
      -- Each kind of relation has its own other side, and all look its model up first.
      obtain ⟨r, hmem, g, hg, level, hside, hmodel, hfield⟩ := h.exists_relation hm hf hr
      unfold OtherSide at hside
      split at hside
      · exact ⟨_, by rw [Store.step, hside.2]; simp only [hmodel, Outcome.ok_bind]; rfl⟩
      · exact ⟨_, by rw [Store.step, hside.2]; simp only [hmodel, Outcome.ok_bind]; rfl⟩
      · rename_i other through own there relatedName hgt
        obtain ⟨links, hlinks⟩ := h.links r hmem g hg _ _ _ _ _ hgt
        refine ⟨Store.linkedKeys reg st links there own key, ?_⟩
        rw [Store.step, hside.2]
        simp only [hmodel, hfield, hgt, Outcome.ok_bind]
        exact Store.linked_eq hlinks key
      · exact hside.elim

theorem exists_mapM_step (hf : reg.field m name = .ok f) (st : Store) (keys : List Value) :
    ∃ reached, keys.mapM (Store.step reg st m f) = .ok reached := by
  obtain ⟨reached, hreached, _⟩ := Outcome.exists_mapM (P := fun _ _ => True) (l := keys) fun key _ =>
    (h.exists_step hm hf st key).imp fun _ hvs => ⟨hvs, trivial⟩
  exact ⟨reached, hreached⟩

/-- A track can be followed from any keys. -/
theorem exists_follow (st : Store) (start whole : String) (htracks : Tracks reg m names steps) (keys : List Value) :
    ∃ vs, Store.follow reg st start whole m keys names = .ok vs := by
  induction htracks generalizing keys with
  | last hf =>
      cases keys with
      | nil => exact ⟨[], by rw [Store.follow]⟩
      | cons key rest =>
          obtain ⟨reached, hreached⟩ := h.exists_mapM_step hm hf st (key :: rest)
          simp only [Store.follow, hf, Outcome.ok_bind, hreached]
          exact ⟨_, rfl⟩
  | @cons m next name f names steps hf hrel hnext htracks ih =>
      cases keys with
      | nil => exact ⟨[], by rw [Store.follow]⟩
      | cons key rest =>
          obtain ⟨reached, hreached⟩ := h.exists_mapM_step hm hf st (key :: rest)
          obtain ⟨n, more, rfl⟩ : ∃ n more, names = n :: more := by cases htracks <;> exact ⟨_, _, rfl⟩
          simp only [Store.follow, hf, Outcome.ok_bind, hreached, hrel, if_true, hnext]
          exact ih (mem_of_related hnext) _

/-- A path that resolves can be followed from the row of any key. -/
theorem exists_pathValues (st : Store) (hp : reg.resolvePath m path = .ok p) (key : Value) :
    ∃ vs, Store.pathValues reg st m key path = .ok vs :=
  h.exists_follow hm st m.name path (tracks_of_resolvePath hp) [key]

end Followable

end Registry

/-! ## Unique columns -/

namespace Store

/-- A store that obeys its unique columns, the primary keys among them: of two rows the later holds nothing there that
is equal to what the earlier holds. Keys are not null, and what stands in these columns is well-formed. -/
structure ObeysUnique (reg : Registry) (st : Store) : Prop where
  apart : ∀ m ∈ reg.models, ∀ f ∈ m.own, f.isConcrete → f.unique → (st.keys m).Pairwise fun k k' =>
    (cell reg st m k f.name).isNull = false → (cell reg st m k f.name).equiv (cell reg st m k' f.name) = false
  keyed : ∀ m ∈ reg.models, .null ∉ st.keys m
  wellFormed : ∀ m ∈ reg.models, ∀ f ∈ m.own, f.isConcrete → f.unique →
    ∀ k ∈ st.keys m, (cell reg st m k f.name).WellFormed

/-- Every one-to-one column is declared unique. -/
def OneToOneUnique (reg : Registry) : Prop := ∀ m ∈ reg.models, ∀ f ∈ m.own, f.type.name = "o2o" → f.unique

instance (reg : Registry) : Decidable (OneToOneUnique reg) :=
  inferInstanceAs (Decidable (∀ m ∈ reg.models, ∀ f ∈ m.own, f.type.name = "o2o" → f.unique))

theorem eq_nil_or_singleton {α : Type} {l : List α} (h : l.length ≤ 1) : l = [] ∨ ∃ a, l = [a] := by
  rcases Nat.le_one_iff_eq_zero_or_eq_one.mp h with hnone | hone
  · exact .inl (List.length_eq_zero_iff.mp hnone)
  · exact .inr (List.length_eq_one_iff.mp hone)

/-- Of items no two of which pass together one passes at most. -/
theorem length_filter_le_one {α : Type} {l : List α} {q : α → Bool} (h : l.Pairwise fun a b => q a → q b = false) :
    (l.filter q).length ≤ 1 := by
  have hnone : (l.filter q).Pairwise fun _ _ => False := by
    rw [List.pairwise_filter]
    refine h.imp fun {a b} hab ha hb => ?_
    rw [hab ha] at hb
    cases hb
  generalize l.filter q = kept at hnone
  cases hnone with
  | nil => exact Nat.zero_le 1
  | @cons a rest hrest _ =>
      obtain rfl : rest = [] := List.eq_nil_iff_forall_not_mem.mpr hrest
      exact Nat.le_refl 1

/-- One row at most holds a key in a unique column. -/
theorem length_referencing_le_one (hu : ObeysUnique reg st) (hm : m ∈ reg.models) (hf : f ∈ m.own) (hc : f.isConcrete)
    (hunique : f.unique) (hkey : key.isNull = false) : (referencing reg st m f.name key).length ≤ 1 := by
  refine length_filter_le_one ((hu.apart m hm f hf hc hunique).imp_of_mem fun {k k'} hk hk' hapart hequal => ?_)
  rw [← Bool.not_eq_true]
  intro hequal'
  have hnull : (cell reg st m k f.name).isNull = false := by
    cases hcell : cell reg st m k f.name with
    | null =>
        rw [hcell] at hequal
        rw [← (Value.equiv_iff_of_isScalar rfl).mp hequal] at hkey
        cases hkey
    | _ => rfl
  -- Both cells are equal to the key, so they are equal.
  have hboth := Value.equiv_of_equiv_right (hu.wellFormed m hm f hf hc hunique k' hk') hequal hequal'
  rw [hapart hnull] at hboth
  cases hboth

section Single

variable (hr : Followable reg) (ho : OneToOneUnique reg) (hu : ObeysUnique reg st)
include hr ho hu

/-- A step that is not to many leads from a key to one value at most. -/
theorem length_step_le_one (hm : m ∈ reg.models) (hf : reg.field m name = .ok f) (hone : f.type.isMany = false)
    (hkey : key.isNull = false) (h : step reg st m f key = .ok vs) : vs.length ≤ 1 := by
  cases ht : f.type with
  | reverseOneToOne owner field =>
      obtain ⟨r, hr', g, hg, hgt, hconcrete, hstep⟩ := hr.step_reverseOneToOne hm hf ht st key
      obtain rfl := Except.ok.inj (h.symm.trans hstep)
      exact length_referencing_le_one hu hr' hg hconcrete (ho r hr' g hg hgt) hkey
  | manyToMany | reverseForeignKey | reverseManyToMany =>
      rw [ht] at hone
      cases hone
  | _ =>
      rw [step, ht] at h
      cases h
      exact Nat.le_refl 1

/-- A track without a step to many leads from one row at most to one value at most. -/
theorem length_follow_le_one {start whole : String} (htracks : Tracks reg m names steps) (hm : m ∈ reg.models)
    (hone : ∀ s ∈ steps, s.field.type.isMany = false) (hkeys : keys.length ≤ 1)
    (hnull : ∀ key ∈ keys, key.isNull = false) (h : follow reg st start whole m keys names = .ok vs) :
    vs.length ≤ 1 := by
  induction htracks generalizing keys with
  | last hf =>
      rcases eq_nil_or_singleton hkeys with rfl | ⟨key, rfl⟩
      · rw [follow] at h
        cases h
        exact Nat.zero_le 1
      · obtain ⟨reached, hreached⟩ := hr.exists_step hm hf st key
        simp only [follow, hf, Outcome.ok_bind, List.mapM_cons, List.mapM_nil, hreached, Outcome.pure_eq_ok] at h
        cases h
        rw [List.flatten_singleton]
        exact length_step_le_one hr ho hu hm hf (hone _ List.mem_cons_self) (hnull key List.mem_cons_self) hreached
  | @cons m next name f names steps hf hrel hnext htracks ih =>
      rcases eq_nil_or_singleton hkeys with rfl | ⟨key, rfl⟩
      · rw [follow] at h
        cases h
        exact Nat.zero_le 1
      · obtain ⟨reached, hreached⟩ := hr.exists_step hm hf st key
        have hlength : reached.length ≤ 1 :=
          length_step_le_one hr ho hu hm hf (hone _ List.mem_cons_self) (hnull key List.mem_cons_self) hreached
        obtain ⟨n, more, rfl⟩ : ∃ n more, names = n :: more := by cases htracks <;> exact ⟨_, _, rfl⟩
        simp only [follow, hf, Outcome.ok_bind, List.mapM_cons, List.mapM_nil, hreached, Outcome.pure_eq_ok, hrel,
          if_true, hnext, List.flatten_singleton] at h
        -- What is followed on are the values that were reached, without nulls.
        refine ih (mem_of_related hnext) (fun s hs => hone s (List.mem_cons_of_mem _ hs))
          ((List.length_filter_le _ _).trans hlength) (fun v hv => ?_) h
        simpa using (List.mem_filter.mp hv).2

/-- A path to one value leads from a row to one value at most. -/
theorem length_pathValues_le_one (hm : m ∈ reg.models) (hp : reg.resolvePath m path = .ok p) (hsingle : p.isSingle)
    (hkey : key.isNull = false) (h : pathValues reg st m key path = .ok vs) : vs.length ≤ 1 := by
  have hone : ∀ s ∈ p.steps, s.field.type.isMany = false := by
    simpa [ResolvedPath.isSingle, List.all_eq_true] using hsingle
  have hstart : [key].length ≤ 1 := Nat.le_refl 1
  exact length_follow_le_one hr ho hu (tracks_of_resolvePath hp) hm hone hstart
    (List.forall_mem_singleton.mpr hkey) h

end Single

/-! ## Records -/

/-- Columns of paths to one value. -/
def SingleColumns (reg : Registry) (m : Model) (columns : List SelectColumn) : Prop :=
  ∀ c ∈ columns, ∃ path p, c.expr = .column path ∧ reg.resolvePath m path = .ok p ∧ p.isSingle

/-- A path that leads to one value at most is fetched as one, and so is an annotation. -/
theorem columnCells_single (hone : ∀ vs, pathValues reg st m pk path = .ok vs → vs.length ≤ 1) {cells : List Value}
    (h : columnCells reg st m named pk (.column path) = .ok cells) : ∃ v, cells = [v] := by
  obtain ⟨vs, hvalues, h⟩ := Outcome.bind_eq_ok.mp h
  have hlength : vs.length ≤ 1 := by
    unfold columnValues at hvalues
    split at hvalues
    · obtain ⟨v, _, hv⟩ := Outcome.bind_eq_ok.mp hvalues
      cases hv
      exact Nat.le_refl 1
    · exact hone vs hvalues
  cases h
  rcases eq_nil_or_singleton hlength with rfl | ⟨v, rfl⟩
  · exact ⟨.null, rfl⟩
  · exact ⟨v, rfl⟩

/-- A row has one record if each of its columns has one value. -/
theorem rowRecords_single
    (hcells : ∀ c ∈ columns, ∀ cells, columnCells reg st m named pk c.expr = .ok cells → ∃ v, cells = [v])
    (h : rowRecords reg st m named columns pk = .ok records) : ∃ r, records = [r] := by
  refine Outcome.foldlM_keeps (P := fun rs : List Record => ∃ r, rs = [r]) (fun c hc before after hbefore hstep => ?_)
    ⟨[], rfl⟩ h
  obtain ⟨cells, hcolumn, hstep⟩ := Outcome.bind_eq_ok.mp hstep
  obtain ⟨r, rfl⟩ := hbefore
  obtain ⟨v, rfl⟩ := hcells c hc cells hcolumn
  cases hstep
  exact ⟨r.insert c.label v, rfl⟩

theorem forall₂_flatMap_single {α β : Type} {g : α → List β} {l : List α} (h : ∀ a ∈ l, ∃ b, g a = [b]) :
    List.Forall₂ (fun a b => g a = [b]) l (l.flatMap g) := by
  induction l with
  | nil => exact .nil
  | cons a rest ih =>
      obtain ⟨b, hb⟩ := h a List.mem_cons_self
      rw [List.flatMap_cons, hb]
      exact .cons hb (ih fun x hx => h x (List.mem_cons_of_mem a hx))

/-- What is fetched of columns of paths to one value is one record for each selected row. -/
theorem fetch_single (hr : Followable reg) (ho : OneToOneUnique reg) (hu : ObeysUnique reg st)
    (hm : qs.model ∈ reg.models) (hcolumns : SingleColumns reg qs.model columns) (h : st.fetch reg qs columns = .ok records) :
    ∃ pks, select reg st qs = .ok pks ∧ List.Forall₂ (fun pk r =>
      rowRecords reg st qs.model (Expression.annotationsOf reg st qs) columns pk = .ok [r]) pks records := by
  obtain ⟨_, pks, own, hpks, hown, rfl⟩ := fetch_eq_ok_iff.mp h
  have hsole : ∀ pk ∈ pks, ∃ r, own pk = [r] := by
    intro pk hpk
    have hkey : pk.isNull = false := by
      have hmem := (select_subperm hpks).subset hpk
      cases pk with
      | null => exact absurd hmem (hu.keyed _ hm)
      | _ => rfl
    refine rowRecords_single (fun c hc cells hcells => ?_) (hown pk hpk)
    obtain ⟨path, p, hexpr, hp, hsingle⟩ := hcolumns c hc
    rw [hexpr] at hcells
    exact columnCells_single (fun vs hvs => length_pathValues_le_one hr ho hu hm hp hsingle hkey hvs) hcells
  refine ⟨pks, hpks, ((List.forall₂_and_left pks _).mpr ⟨hown, forall₂_flatMap_single hsole⟩).imp fun pk r hpk => ?_⟩
  rw [hpk.1, hpk.2]

/-- Columns of paths that resolve are fetched from rows that can be selected, if no annotation has the name of one of
them and the window allows for the other expressions. -/
theorem exists_fetch_paths (hr : Followable reg) (hm : qs.model ∈ reg.models)
    (hcolumns : SingleColumns reg qs.model columns) {pks : List Value} (hselect : select reg st qs = .ok pks)
    (hplain : ∀ c ∈ columns, ∀ path, c.expr = .column path → Expression.annotationsOf reg st qs path = none)
    (hallowed : (qs.isSliced && (qs.annotations.map Prod.snd ++ qs.ordering.map OrderTerm.expr).any
      (reg.aggregatesMany qs.model)) = false) : ∃ records, st.fetch reg qs columns = .ok records := by
  refine exists_fetch ?_ hselect fun pk _ c hc => ?_
  · -- A path is no aggregate.
    have hnone : (columns.map SelectColumn.expr).any (reg.aggregatesMany qs.model) = false := by
      rw [List.any_map, List.any_eq_false]
      intro c hc
      obtain ⟨path, _, hexpr, _⟩ := hcolumns c hc
      simp [hexpr, Registry.aggregatesMany]
    rw [List.append_assoc, List.any_append, hnone, Bool.false_or]
    exact hallowed
  · obtain ⟨path, p, hexpr, hp, _⟩ := hcolumns c hc
    obtain ⟨vs, hvs⟩ := hr.exists_pathValues hm st hp pk
    rw [hexpr, columnCells, columnValues, hplain c hc path hexpr]
    simp only [hvs, Outcome.ok_bind]
    exact ⟨_, rfl⟩

/-- In a registry that was built, whose fields have names of their own and whose other sides are those of relations,
every path that resolves can be followed from the row of every key. If moreover one-to-one columns are unique
and the store obeys its unique columns, keys included, then a path to one value leads to one at most, and what is
fetched of such paths is one record for each selected row. -/
theorem followed_of_build (hb : Registry.build decls = .ok reg) (hnames : DistinctlyNamed reg)
    (hs : SidesAreDeclared reg) (hm : m ∈ reg.models) :
    (∀ path p, reg.resolvePath m path = .ok p → ∀ key, ∃ vs, pathValues reg st m key path = .ok vs) ∧
    (OneToOneUnique reg → ObeysUnique reg st →
      (∀ path p, reg.resolvePath m path = .ok p → p.isSingle → ∀ key, key.isNull = false →
        ∃ vs, pathValues reg st m key path = .ok vs ∧ vs.length ≤ 1) ∧
      ∀ qs : Queryset, qs.model = m → ∀ columns, SingleColumns reg m columns →
        (∀ records, st.fetch reg qs columns = .ok records → ∃ pks, select reg st qs = .ok pks ∧
          List.Forall₂ (fun pk r =>
            rowRecords reg st m (Expression.annotationsOf reg st qs) columns pk = .ok [r]) pks records) ∧
        ∀ pks, select reg st qs = .ok pks →
          (∀ c ∈ columns, ∀ path, c.expr = .column path → Expression.annotationsOf reg st qs path = none) →
          (qs.isSliced && (qs.annotations.map Prod.snd ++ qs.ordering.map OrderTerm.expr).any
            (reg.aggregatesMany m)) = false → ∃ records, st.fetch reg qs columns = .ok records) := by
  have hr := followable_of_build hb hnames hs
  refine ⟨fun path p hp key => hr.exists_pathValues hm st hp key, fun ho hu => ⟨?_, ?_⟩⟩
  · intro path p hp hsingle key hkey
    obtain ⟨vs, hvs⟩ := hr.exists_pathValues hm st hp key
    exact ⟨vs, hvs, length_pathValues_le_one hr ho hu hm hp hsingle hkey hvs⟩
  · rintro qs rfl columns hcolumns
    exact ⟨fun records h => fetch_single hr ho hu hm hcolumns h,
      fun pks hselect hplain hallowed => exists_fetch_paths hr hm hcolumns hselect hplain hallowed⟩

/-! ### Badges and their holders -/

/-- Some persons are staff and wear badges. -/
def badgeDecls : List ModelDecl :=
  [{ name := "person", fields := [.autoKey "id"] },
    { name := "staff", parent := some "person", fields := [] },
    { name := "badge", fields := [.autoKey "id", .of "holder" (.oneToOne "staff" (some "badge"))] }]

def person : Model := ⟨"person", none, "id", [.autoKey "id"], []⟩

def staff : Model := ⟨"staff", some "person", "id", [], [.of "badge" (.reverseOneToOne "badge" "holder")]⟩

def badge : Model :=
  ⟨"badge", none, "id", [.autoKey "id", .of "holder" (.oneToOne "staff" (some "badge"))], []⟩

def badges : Registry := ⟨[person, staff, badge]⟩

/-- Two persons on the staff, one of them with a badge. -/
def worn : Store :=
  ⟨[("person", ⟨[(.int 1, []), (.int 2, [])], 2⟩), ("staff", ⟨[(.int 1, []), (.int 2, [])], 2⟩),
    ("badge", ⟨[(.int 7, [("holder", .int 2)])], 7⟩)]⟩

theorem worn_unique : ObeysUnique badges worn where
  apart := by decide
  keyed := by decide
  wellFormed m hm f hf hc hu k hk := by
    have hscalar : ∀ m ∈ badges.models, ∀ f ∈ m.own, f.isConcrete → f.unique →
        ∀ k ∈ worn.keys m, (cell badges worn m k f.name).isScalar := by decide
    exact .scalar (hscalar m hm f hf hc hu k hk)

def badgePath : ResolvedPath :=
  ⟨[⟨staff, .of "badge" (.reverseOneToOne "badge" "holder")⟩],
    ⟨badge, .of "holder" (.oneToOne "staff" (some "badge"))⟩⟩

/-- The holder of the badge of each of the staff. -/
theorem followed_of_badges :
    (Registry.build badgeDecls = .ok badges ∧ DistinctlyNamed badges ∧ SidesAreDeclared badges ∧ OneToOneUnique badges ∧
      staff ∈ badges.models ∧ badges.resolvePath staff "badge.holder" = .ok badgePath ∧ badgePath.isSingle) ∧
    (∃ vs, pathValues badges worn staff (.int 2) "badge.holder" = .ok vs ∧ vs.length ≤ 1) ∧
    ∃ records, worn.fetch badges (.all staff) [.ofPath "badge.holder"] = .ok records ∧
      ∃ pks, select badges worn (.all staff) = .ok pks ∧ records.length = pks.length := by
  have hbuild : Registry.build badgeDecls = .ok badges := rfl
  have hnames : DistinctlyNamed badges := by decide
  have hsides : SidesAreDeclared badges := sidesAreDeclared_of_forward (by decide)
  have hunique : OneToOneUnique badges := by decide
  have hstaff : staff ∈ badges.models := by decide
  have hpath : badges.resolvePath staff "badge.holder" = .ok badgePath := rfl
  have hsingle : badgePath.isSingle := rfl
  obtain ⟨hvalues, hfetch⟩ := (followed_of_build hbuild hnames hsides hstaff).2 hunique worn_unique
  refine ⟨⟨hbuild, hnames, hsides, hunique, hstaff, hpath, hsingle⟩, hvalues _ _ hpath hsingle _ rfl, ?_⟩
  obtain ⟨hsole, hexists⟩ := hfetch (.all staff) rfl [.ofPath "badge.holder"]
    (List.forall_mem_singleton.mpr ⟨_, _, rfl, hpath, hsingle⟩)
  obtain ⟨records, hrecords⟩ := hexists [.int 1, .int 2] rfl (fun _ _ _ _ => rfl) rfl
  obtain ⟨pks, hpks, hall⟩ := hsole records hrecords
  exact ⟨records, hrecords, pks, hpks, hall.length_eq.symm⟩

/-! ### What fans out, and what cannot be followed -/

/-- A tag that says it is used by a relation which is none. -/
def tag : Model := ⟨"tag", none, "id", [.autoKey "id", .of "uses" (.reverseManyToMany "tag" "id")], []⟩

/-- Users with documents as keys, which are those of their profiles. -/
def profileDecls : List ModelDecl :=
  [{ name := "user", fields := [{ name := "id", type := .json, primaryKey := true, unique := true }] },
    { name := "profile"
      fields :=
      [{ name := "user", type := .oneToOne "user" (some "profile"), primaryKey := true, unique := true }] }]

def user : Model :=
  ⟨"user", none, "id", [{ name := "id", type := .json, primaryKey := true, unique := true }],
    [.of "profile" (.reverseOneToOne "profile" "user")]⟩

def profile : Model :=
  ⟨"profile", none, "user",
    [{ name := "user", type := .oneToOne "user" (some "profile"), primaryKey := true, unique := true }], []⟩

def profiles : Registry := ⟨[user, profile]⟩

/-- Two users, and a profile for each; then another under the first key with the other sign. -/
def profileRun : List (Instant × Call) :=
  [(⟨0, 0⟩, .insert user [("id", Database.zeroKey false)]),
    (⟨0, 0⟩, .insert user [("id", Database.oneKey)]),
    (⟨0, 0⟩, .insert profile [("user", Database.oneKey)]),
    (⟨0, 0⟩, .insert profile [("user", Database.zeroKey false)]),
    (⟨0, 0⟩, .insert profile [("user", Database.zeroKey true)])]

def profiled : Store := (Database.empty.play profiles profileRun).store

/-- A relation that is none can be resolved and not followed. And in a store whose keys are written differently and
whose unique columns are unrepeated a path to one value leads to two, so that a user has two records. -/
theorem profiles_fan_out :
    (Registry.build [{ name := "tag", fields := tag.own }] = .ok ⟨[tag]⟩ ∧ DistinctlyNamed ⟨[tag]⟩ ∧
      (Registry.resolvePath ⟨[tag]⟩ tag "uses" = .ok ⟨[], ⟨tag, .of "uses" (.reverseManyToMany "tag" "id")⟩⟩) ∧
      pathValues ⟨[tag]⟩ .empty tag (.int 1) "uses" = .error (.notManyToMany "tag" "id")) ∧
    (Registry.build profileDecls = .ok profiles ∧ DistinctlyNamed profiles ∧ OneToOneUnique profiles ∧
      Unrepeated profiles profiled ∧ (∀ m ∈ profiles.models, (profiled.keys m).Nodup) ∧
      (∃ p, profiles.resolvePath user "profile" = .ok p ∧ p.isSingle) ∧
      pathValues profiles profiled user (Database.zeroKey false) "profile" =
        .ok [Database.zeroKey false, Database.zeroKey true] ∧
      select profiles profiled (.all user) = .ok [Database.zeroKey false, Database.oneKey] ∧
      profiled.fetch profiles (.all user) [.ofPath "profile"] =
        .ok [[("profile", Database.zeroKey false)], [("profile", Database.zeroKey true)],
          [("profile", Database.oneKey)]]) := by
  have hkeys : ∀ m ∈ profiles.models, ∀ f ∈ m.own, f.primaryKey = true := by decide
  refine ⟨⟨rfl, by decide, rfl, rfl⟩, rfl, by decide, by decide, ?_, by decide, ⟨_, rfl, rfl⟩, rfl, rfl, rfl⟩
  intro m hm f hf _ hkey
  rw [hkeys m hm f hf] at hkey
  cases hkey

end Store

end RecordMapper
