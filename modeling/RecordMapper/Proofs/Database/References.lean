import RecordMapper.Proofs.Database.Constraints
import RecordMapper.Proofs.Registry.Keys
import RecordMapper.Proofs.Store.Hops
import RecordMapper.Proofs.Store.References

/-!
# References along runs — what every store of a run refers to

In every store of every run over the models of a built registry, the
foreign keys that are not primary keys hold null or keys of their
targets, as long as equal keys are the same (`Store.Exact`). For those
that are primary keys this is so exactly when every insert that succeeds
is given a key of the target (`KeysAim`): no check asks for it.

The calls of a run that bring only plain keys, and primary keys that lead
to rows, reach stores that are `Intact` and whose keys are inherited.
-/

namespace RecordMapper

namespace Database

/-- A foreign key holds null or a key of its target in every row. -/
def Aimed (reg : Registry) (st : Store) (m : Model) (f : Field) : Prop :=
  ∃ t ∈ reg.models, f.type.relatedModel? = some t.name ∧ Store.Aims reg st m f t

/-- Every insert that succeeds has a key of the target, where the primary key is a foreign key. -/
def KeysAim (reg : Registry) (calls : List (Instant × Call)) : Prop :=
  ∀ done now m values rest, calls = done ++ (now, .insert m values) :: rest →
    ∀ pk st', Store.insert reg now (empty.play reg done).store m values = .ok (pk, st') →
      ∀ f ∈ (reg.rootOf m).own, f.primaryKey → f.isForeignKey → ∀ t ∈ reg.models,
        f.type.relatedModel? = some t.name → pk ∈ st'.keys t

variable {reg : Registry} {calls : List (Instant × Call)} {st st' : Store} {now : Instant} {c : Call}
  {m t : Model} {f : Field}

/-- Where keys are booleans, integers, texts and their like, equal keys are the same. -/
theorem Reached.exact_of_isPlain (hr : reg.Rooted) (hw : ∀ c ∈ calls, c.2.Within reg)
    (hplain : ∀ k, Drawn reg calls k → k.isPlain) (h : Reached reg calls st) : Store.Exact reg st :=
  Store.exact_of_isPlain fun k ⟨m, hm, hk⟩ => hplain k ((h.wellKept hr hw).keyed m hm k hk)

section Columns

variable (hr : reg.Rooted) (hm : m ∈ reg.models) (hf : f ∈ m.own) (hfk : f.isForeignKey) (ht : t ∈ reg.models)
  (hto : f.type.relatedModel? = some t.name)

include hr hm hf hfk ht hto in
/-- A successful write keeps a foreign key that is no primary key. -/
theorem leaves_aims (hw : c.Within reg) (he : Store.Exact reg st) (he' : Store.Exact reg st')
    (hp : f.primaryKey = false) (h : Store.Aims reg st m f t) (hleaves : c.Leaves reg now st st') :
    Store.Aims reg st' m f t := by
  cases hleaves with
  | insert hinsert =>
      refine Store.insert_aims hr hm hf hfk hw h hinsert fun hl => ?_
      obtain ⟨_, _, _, _, _, _, hcheck⟩ := Store.insert_eq_ok hinsert
      have hk := Store.mem_keys_insert hr hw hinsert hl
      exact Store.refers_of_found hm hf hfk ht he' hk
        (Store.found_of_checkRow hr hf hfk ht hto hp hcheck hl)
  | insertChild hinsert =>
      refine Store.insertChild_aims hr hm hf hfk hw h hinsert fun pk hl hcheck hk => ?_
      exact Store.refers_of_found hm hf hfk ht he' hk
        (Store.found_of_checkRow hr hf hfk ht hto hp hcheck (hl ▸ reg.self_mem_lineage _))
  | update hupdate => exact Store.update_aims hr hm hf hfk ht hto hw he' hp h hupdate
  | delete hdelete => exact Store.delete_aims hr hm hf hfk ht hto hw he.key h hdelete

include hr hm hf hfk ht hto in
/-- A successful write keeps a foreign key that is a primary key, if an insert has a key of the target. -/
theorem leaves_aims_key (hw : c.Within reg) (hd : Store.Discerned reg st) (hname : f.name = m.pkName)
    (htop : m.parent = none)
    (hgiven : ∀ owner values pk, c = .insert owner values → Store.insert reg now st owner values = .ok (pk, st') →
      reg.rootOf owner = m → pk ∈ st'.keys t)
    (h : Store.Aims reg st m f t) (hleaves : c.Leaves reg now st st') : Store.Aims reg st' m f t := by
  cases hleaves with
  | insert hinsert =>
      refine Store.insert_aims hr hm hf hfk hw h hinsert fun hl => .inr ?_
      rw [hname, Store.cell_pkName]
      exact hgiven _ _ _ rfl hinsert (hr.rootOf_of_parent hw hl htop)
  | insertChild hinsert =>
      refine Store.insertChild_aims hr hm hf hfk hw h hinsert fun pk hl => ?_
      obtain ⟨_, _, _, hparent, _⟩ := Store.insertChild_eq_ok hinsert
      rw [← hl, Registry.parent?_eq_none_of_parent htop] at hparent
      cases hparent
  | update hupdate => exact Store.update_aims_key hr hm hw hname h hupdate
  | delete hdelete => exact Store.delete_aims hr hm hf hfk ht hto hw hd h hdelete

end Columns

/-! ## Whole runs -/

theorem reached_of_insert {done rest : List (Instant × Call)} {values : Record} {pk : Value}
    (hsplit : calls = done ++ (now, .insert m values) :: rest)
    (h : Store.insert reg now (empty.play reg done).store m values = .ok (pk, st')) : Reached reg calls st' :=
  store_perform_insert h ▸ reached_next hsplit

section Runs

variable {decls : List ModelDecl} (hb : Registry.build decls = .ok reg) (hw : ∀ c ∈ calls, c.2.Within reg)

include hb in
/-- The target of a foreign key is a model. -/
theorem exists_target (hm : m ∈ reg.models) (hf : f ∈ m.own) (hfk : f.isForeignKey) :
    ∃ t ∈ reg.models, f.type.relatedModel? = some t.name := by
  obtain ⟨settled, h⟩ := Registry.builtFrom_of_build hb
  have hforward : Registry.neededModels f.type ≠ [] := by
    unfold Field.isForeignKey at hfk
    revert hfk
    cases f.type <;> simp [Registry.neededModels]
  obtain ⟨t, ht, g, _, hopp, _⟩ := h.exists_side hm hf hforward
  exact ⟨t, ht, hopp.relatedModel?.1⟩

include hb hw in
theorem aims_of_not_key (he : ∀ st, Reached reg calls st → Store.Exact reg st) (hm : m ∈ reg.models)
    (hf : f ∈ m.own) (hfk : f.isForeignKey) (hp : f.primaryKey = false) (ht : t ∈ reg.models)
    (hto : f.type.relatedModel? = some t.name) (h : Reached reg calls st) : Store.Aims reg st m f t := by
  have hr := Registry.rooted_of_build hb
  refine h.induction_reached (Q := fun st => Store.Aims reg st m f t) (.empty reg m f t)
    fun done now c rest hsplit haims st' hleaves hreached => ?_
  have hpresent : Reached reg calls (empty.play reg done).store := reached_before hsplit
  exact leaves_aims hr hm hf hfk ht hto (hw _ (mem_of_split hsplit)) (he _ hpresent) (he st' hreached) hp
    haims hleaves

include hb hw in
theorem aims_of_key (he : ∀ st, Reached reg calls st → Store.Exact reg st) (hk : KeysAim reg calls)
    (hm : m ∈ reg.models) (hf : f ∈ m.own) (hfk : f.isForeignKey) (hp : f.primaryKey) (ht : t ∈ reg.models)
    (hto : f.type.relatedModel? = some t.name) (h : Reached reg calls st) : Store.Aims reg st m f t := by
  have hr := Registry.rooted_of_build hb
  obtain ⟨settled, hbuilt⟩ := Registry.builtFrom_of_build hb
  obtain ⟨htop, hname⟩ := hbuilt.of_primaryKey hm hf hp
  refine h.induction_reached (Q := fun st => Store.Aims reg st m f t) (.empty reg m f t)
    fun done now c rest hsplit haims st' hleaves hreached => ?_
  have hpresent : Reached reg calls (empty.play reg done).store := reached_before hsplit
  refine leaves_aims_key hr hm hf hfk ht hto (hw _ (mem_of_split hsplit)) (he _ hpresent).key hname htop ?_
    haims hleaves
  rintro owner values pk rfl hinsert rfl
  exact hk done now owner values rest hsplit pk st' hinsert f hf hp hfk t ht hto

include hb hw in
/-- A foreign key that is no primary key holds null or a key of its target. -/
theorem aimed_of_not_key (he : ∀ st, Reached reg calls st → Store.Exact reg st) (hm : m ∈ reg.models)
    (hf : f ∈ m.own) (hfk : f.isForeignKey) (hp : f.primaryKey = false) (h : Reached reg calls st) :
    Aimed reg st m f := by
  obtain ⟨t, ht, hto⟩ := exists_target hb hm hf hfk
  exact ⟨t, ht, hto, aims_of_not_key hb hw he hm hf hfk hp ht hto h⟩

include hb hw in
/-- Every foreign key does if the inserts gave keys of the targets. -/
theorem aimed_of_keysAim (he : ∀ st, Reached reg calls st → Store.Exact reg st) (hk : KeysAim reg calls)
    (hm : m ∈ reg.models) (hf : f ∈ m.own) (hfk : f.isForeignKey) (h : Reached reg calls st) : Aimed reg st m f := by
  cases hp : f.primaryKey with
  | false => exact aimed_of_not_key hb hw he hm hf hfk hp h
  | true =>
      obtain ⟨t, ht, hto⟩ := exists_target hb hm hf hfk
      exact ⟨t, ht, hto, aims_of_key hb hw he hk hm hf hfk hp ht hto h⟩

include hb hw in
/-- Where every foreign key holds keys of its target, the inserts gave keys of the targets. -/
theorem keysAim_of_aimed
    (h : ∀ st, Reached reg calls st → ∀ m ∈ reg.models, ∀ f ∈ m.own, f.isForeignKey → Aimed reg st m f) :
    KeysAim reg calls := by
  have hr := Registry.rooted_of_build hb
  obtain ⟨settled, hbuilt⟩ := Registry.builtFrom_of_build hb
  intro done now m values rest hsplit pk st' hinsert f hf hp hfk t ht hto
  have hm : m ∈ reg.models := hw _ (mem_of_split hsplit)
  have hroot := hr.rootOf_mem_models hm
  obtain ⟨t', ht', hto', haims⟩ := h st' (reached_of_insert hsplit hinsert) _ hroot f hf hfk
  obtain rfl : t' = t := hr.eq_of_name ht' ht (Option.some.inj (hto'.symm.trans hto))
  obtain ⟨_, hname⟩ := hbuilt.of_primaryKey hroot hf hp
  obtain ⟨_, _, _, hnull, _⟩ := Store.insert_eq_ok hinsert
  have hkey := Store.mem_keys_insert hr hm hinsert (reg.rootOf_mem_lineage m)
  refine ((Store.aims_key_iff hname).mp haims pk hkey).resolve_left ?_
  rintro rfl
  cases hnull

end Runs

/-- Where equal keys are the same, every foreign key that is no primary key holds null or a key of its
target, in every store of a run. All foreign keys do exactly when every insert that succeeds is given a
key of the target, where the primary key is a foreign key. -/
theorem references_along_runs {decls : List ModelDecl} (hb : Registry.build decls = .ok reg)
    (hw : ∀ c ∈ calls, c.2.Within reg) (he : ∀ st, Reached reg calls st → Store.Exact reg st) :
    (∀ st, Reached reg calls st → ∀ m ∈ reg.models, ∀ f ∈ m.own, f.isForeignKey → f.primaryKey = false →
      Aimed reg st m f) ∧
    ((∀ st, Reached reg calls st → ∀ m ∈ reg.models, ∀ f ∈ m.own, f.isForeignKey → Aimed reg st m f) ↔
      KeysAim reg calls) :=
  ⟨fun _ h _ hm _ hf hfk hp => aimed_of_not_key hb hw he hm hf hfk hp h, keysAim_of_aimed hb hw,
    fun hk _ h _ hm _ hf hfk => aimed_of_keysAim hb hw he hk hm hf hfk h⟩

/-! ## Profiles under the keys of users -/

def user : Model :=
  { name := "user", parent := none, pkName := "id", own := [.autoKey "id"],
    reverse := [{ name := "profile", type := .reverseOneToOne "profile" "user" },
      { name := "article_set", type := .reverseForeignKey "article" "author" }] }

/-- A model whose primary key is the key of a user. -/
def profile : Model :=
  { name := "profile", parent := none, pkName := "user",
    own := [(Field.of "user" (.oneToOne "user" (some "profile"))).asPrimaryKey], reverse := [] }

def article : Model :=
  { name := "article", parent := none, pkName := "id",
    own := [.autoKey "id", { name := "author", type := .foreignKey "user" (some "article_set"), null := true }],
    reverse := [] }

def people : Registry := ⟨[user, profile, article]⟩

def peopleDecls : List ModelDecl :=
  [{ name := "user", fields := user.own }, { name := "profile", fields := profile.own },
    { name := "article", fields := article.own }]

theorem build_people : Registry.build peopleDecls = .ok people := rfl

/-- A user with a profile and an article; a second article and an update that refer to users who are not
there fail. The users are deleted, which is undone, and then deleted for good. -/
def peopleRun : List (Instant × Call) :=
  [(⟨0, 0⟩, .insert user []),
    (⟨0, 0⟩, .insert profile [("user", .int 1)]),
    (⟨0, 0⟩, .insert article [("author", .int 1)]),
    (⟨0, 0⟩, .insert article [("author", .int 2)]),
    (⟨0, 0⟩, .begin),
    (⟨0, 0⟩, .delete (.all user)),
    (⟨0, 0⟩, .rollback),
    (⟨0, 0⟩, .update (.all article) [("author", .int 7)]),
    (⟨0, 0⟩, .delete (.all user))]

/-- A profile of a user who is not there. -/
def strayRun : List (Instant × Call) := [(⟨0, 0⟩, .insert profile [("user", .int 99)])]

/-- The articles outlive the delete that is undone, and go with the users in the end. -/
example : (empty.play people (peopleRun.take 8)).store.keys article = [.int 1] ∧
    (empty.play people peopleRun).store.keys article = [] := by decide

theorem peopleRun_within : ∀ c ∈ peopleRun, c.2.Within people := by
  intro c hc
  simp only [peopleRun, List.mem_cons, List.not_mem_nil, or_false] at hc
  rcases hc with rfl | rfl | rfl | rfl | rfl | rfl | rfl | rfl | rfl <;> simp [Call.Within, people, Queryset.all]

theorem peopleRun_plain : ∀ k, Drawn people peopleRun k → k.isPlain := by
  rintro k ⟨hnull, ⟨n, rfl⟩ | ⟨c, hc, hbrings⟩⟩
  · rfl
  -- A key comes from the values of an insert, since the initial value of every key is null.
  have hinitial : ∀ m ∈ people.models, (people.field? m m.pkName).map (Field.initial ⟨0, 0⟩) = some .null := by
    decide
  have hgiven : ∀ m ∈ people.models, ∀ values,
      (Call.insert m values).Brings people ⟨0, 0⟩ k → Store.givenKey? m values = some k := by
    rintro m hm values (hgiven | ⟨f, hf, rfl⟩)
    · exact hgiven
    · have hnone := hinitial m hm
      rw [Registry.field] at hf
      split at hf
      · rename_i g hg
        cases hf
        rw [hg, Option.map_some, Option.some.injEq] at hnone
        rw [hnone] at hnull
        cases hnull
      · cases hf
  simp only [peopleRun, List.mem_cons, List.not_mem_nil, or_false] at hc
  rcases hc with rfl | rfl | rfl | rfl | rfl | rfl | rfl | rfl | rfl
  · cases hgiven user (by decide) _ hbrings
  · cases hgiven profile (by decide) _ hbrings
    rfl
  · cases hgiven article (by decide) _ hbrings
  · cases hgiven article (by decide) _ hbrings
  all_goals exact hbrings.elim

theorem references_along_peopleRun :
    (Registry.build peopleDecls = .ok people ∧
      (∀ c ∈ peopleRun, c.2.Within people) ∧ ∀ st, Reached people peopleRun st → Store.Exact people st) ∧
    (∀ st, Reached people peopleRun st → ∀ m ∈ people.models, ∀ f ∈ m.own, f.isForeignKey →
      f.primaryKey = false → Aimed people st m f) ∧
    ((∀ st, Reached people peopleRun st → ∀ m ∈ people.models, ∀ f ∈ m.own, f.isForeignKey →
      Aimed people st m f) ↔ KeysAim people peopleRun) := by
  have hexact : ∀ st, Reached people peopleRun st → Store.Exact people st := fun st h =>
    h.exact_of_isPlain (Registry.rooted_of_build build_people) peopleRun_within peopleRun_plain
  exact ⟨⟨build_people, peopleRun_within, hexact⟩,
    references_along_runs build_people peopleRun_within hexact⟩

/-- No check asks whether the key of a profile is that of a user. -/
theorem strayRun_refers_nowhere :
    Registry.build peopleDecls = .ok people ∧
      (∀ c ∈ strayRun, c.2.Within people) ∧
      ∃ st, Reached people strayRun st ∧ ∃ f ∈ profile.own, f.isForeignKey ∧
        f.type.relatedModel? = some user.name ∧ ∃ k ∈ st.keys profile,
          Store.cell people st profile k f.name ≠ .null ∧ Store.cell people st profile k f.name ∉ st.keys user := by
  refine ⟨build_people, ?_, _, reached_present (List.prefix_refl strayRun), ?_⟩
  · intro c hc
    simp only [strayRun, List.mem_singleton] at hc
    subst hc
    simp [Call.Within, people]
  · decide

end Database

end RecordMapper

namespace RecordMapper.Database

variable {reg : Registry} {calls : List (Instant × Call)} {st : Store}

theorem Reached.intact {decls : List ModelDecl} (hb : Registry.build decls = .ok reg)
    (hw : ∀ c ∈ calls, c.2.Within reg) (hplain : ∀ k, Drawn reg calls k → k.isPlain) (haim : KeysAim reg calls)
    (h : Reached reg calls st) : st.Intact reg ∧ st.Inherits reg := by
  have hr := Registry.rooted_of_build hb
  have hapart : KeysApart reg calls := fun k k' hk _ hequiv => (Value.equiv_iff_of_isPlain_left (hplain k hk)).mp hequiv
  have hexact : ∀ st, Reached reg calls st → Store.Exact reg st := fun st h => h.exact_of_isPlain hr hw hplain
  have hwell := h.wellKept hr hw
  refine ⟨⟨hwell.nodup, fun m hm k hk => hplain k (hwell.keyed m hm k hk), fun m hm f hf hconcrete t ht hto => ?_⟩,
    h.inherits hr hw (anchored_of_keysApart hr hw hapart)⟩
  have hfk : f.isForeignKey := by
    rw [Field.isForeignKey]
    rw [Field.isConcrete] at hconcrete
    cases htype : f.type <;> simp_all [FieldType.isConcrete, FieldType.relatedModel?]
  obtain ⟨t', ht', hto', haims⟩ := aimed_of_keysAim hb hw hexact haim hm hf hfk h
  obtain rfl : t = t' := hr.eq_of_name ht ht' (Option.some.inj (hto.symm.trans hto'))
  exact haims

end RecordMapper.Database
