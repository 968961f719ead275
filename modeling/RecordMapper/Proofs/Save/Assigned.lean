import RecordMapper.Proofs.Save.Repeating
import RecordMapper.Proofs.Store.Unlisted

/-!
# Assigned — what a relation consists of once it is assigned

Assigning keys to an owner that was there before replaces its links, or
directs a foreign key at it (`assign_assigned`). The links that are
missing are inserted one by one, each of them a new row for a key of its
own (`LinksAdded`), after those that are not listed were deleted.
-/

namespace RecordMapper

open Store

namespace RelationWrite

/-- What assigning keys to an owner makes of a relation, a foreign key if it may be null. -/
def Assigned (reg : Registry) (pk : Value) (keys : List Value) (before after : Store) : RelationWrite → Prop
  | .manyToMany through own other => Relinked reg through own other pk keys before after
  | .reverse related field nullable => nullable = true → Redirected reg related field pk keys before after

/-- Links stand in two different columns, and no foreign key leads to the inheritance of their model. -/
def StandsApart (reg : Registry) : RelationWrite → Prop
  | .manyToMany through own other =>
    through.fieldName own ≠ through.fieldName other ∧ ∀ level ∈ family reg through, Unreferred reg level
  | .reverse .. => True

end RelationWrite

variable {decls : List ModelDecl} {reg : Registry} {times : Instant → Prop} {st st₁ st₂ : Store} {pk k x : Value}
  {keys : List Value} {database : String} {w : RelationWrite} {m : Model} {n : Nat}

/-! ## Links -/

/-- Rows that link an owner to some keys were added to those before, one row for each key. -/
structure LinksAdded (reg : Registry) (through : Model) (own other : String) (pk : Value) (before : Store)
    (links : List Value) (after : Store) : Prop where
  inherits : Inherits reg after
  old : ∀ y ∈ before.keys through, Untouched reg through before after y
  new : ∀ y ∈ after.keys through, y ∉ before.keys through →
    cell reg after through y own = pk ∧ cell reg after through y other ∈ links
  linked : ∀ k ∈ links, ∃ y ∈ after.keys through, cell reg after through y own = pk ∧ cell reg after through y other = k
  once : ∀ y ∈ after.keys through, y ∉ before.keys through → ∀ z ∈ after.keys through, z ∉ before.keys through →
    cell reg after through z other = cell reg after through y other → z = y

section Links

variable {through : Model} {own other : String} {f g : Field} {links : List Value} (hb : Registry.build decls = .ok reg)
  (hthrough : through ∈ reg.models) (hown : reg.field? through own = some f) (hfk : f.isForeignKey)
  (hother : reg.field? through other = some g) (hfk' : g.isForeignKey)
  (hapart : through.fieldName own ≠ through.fieldName other) (hpk : pk.isPlain)
include hb hthrough hown hfk hother hfk' hapart hpk

theorem LinksAdded.insert {now : Instant} (h : LinksAdded reg through own other pk st links st₁) (hnew : k ∉ links)
    (hk : k.isNull = false) (hinsert : insert reg now st₁ through (Record.ofList [(own, pk), (other, k)]) = .ok (x, st₂)) :
    LinksAdded reg through own other pk st (links ++ [k]) st₂ := by
  have hr := Registry.rooted_of_build hb
  obtain ⟨hxown, hxother⟩ := cells_newLink hb hthrough hown hfk hother hfk' hapart hpk hk hinsert
  have hx : x ∈ st₂.keys through := mem_keys_insert hr hthrough hinsert (reg.self_mem_lineage through)
  have hstay : ∀ y ∈ st₁.keys through, Untouched reg through st₁ st₂ y := by
    intro y hy
    exact ⟨keys_subset_insert hinsert through hy, cell_insert_of_mem hr hthrough hthrough h.inherits hinsert hy⟩
  have hcases : ∀ y ∈ st₂.keys through, y ∈ st₁.keys through ∨ y = x := by
    intro y hy
    rcases insert_row_cases hr hthrough hinsert hthrough hy with ⟨hold, _⟩ | ⟨heq, _⟩
    · exact .inl hold
    · exact .inr heq
  -- The key is new among the links, so that none of the rows added before holds it.
  have hfresh : ∀ y ∈ st₁.keys through, y ∉ st.keys through → cell reg st₂ through y other ≠ k := by
    intro y hy hnot heq
    apply hnew
    rw [← heq, (hstay y hy).cells]
    exact (h.new y hy hnot).2
  constructor
  case inherits => exact insert_inherits hr hthrough h.inherits hinsert
  case old =>
    intro y hy
    exact (h.old y hy).trans (hstay y (h.old y hy).stands)
  case new =>
    intro y hy hnot
    rcases hcases y hy with hy | rfl
    · rw [(hstay y hy).cells, (hstay y hy).cells]
      exact ⟨(h.new y hy hnot).1, List.mem_append_left _ (h.new y hy hnot).2⟩
    · simp [hxown, hxother]
  case linked =>
    intro k' hk'
    rcases List.mem_append.mp hk' with hold | hlast
    · obtain ⟨y, hy, hyown, hyother⟩ := h.linked k' hold
      exact ⟨y, (hstay y hy).stands, ((hstay y hy).cells own).trans hyown, ((hstay y hy).cells other).trans hyother⟩
    · exact ⟨x, hx, hxown, hxother.trans (List.mem_singleton.mp hlast).symm⟩
  case once =>
    intro y hy hynot z hz hznot hsame
    rcases hcases y hy with hy | rfl <;> rcases hcases z hz with hz | rfl
    · rw [(hstay y hy).cells, (hstay z hz).cells] at hsame
      exact h.once y hy hynot z hz hznot hsame
    · exact absurd (hsame.symm.trans hxother) (hfresh y hy hynot)
    · exact absurd (hsame.trans hxother) (hfresh z hz hznot)
    · rfl

/-- Inserting a row for each of some keys adds those links. -/
theorem insertLinks_ends (hi : Inherits reg st) (hnodup : links.Nodup) (hnull : ∀ k ∈ links, k.isNull = false) :
    Job.Ends database reg times st ((links.map fun k => Record.ofList [(own, pk), (other, k)]).forM fun row => do
      let _ ← Job.insert database through row)
      fun _ st' => LinksAdded reg through own other pk st links st' := by
  rw [List.forM_eq_forM, List.forM_map, ← List.forM_eq_forM]
  have hnone : LinksAdded reg through own other pk st [] st := by
    refine ⟨hi, fun y hy => ⟨hy, fun _ => rfl⟩, ?_, fun _ h => absurd h List.not_mem_nil, ?_⟩
    · intro y hy hnot
      exact absurd hy hnot
    · intro y hy hnot
      exact absurd hy hnot
  apply Job.Ends.forM hnone
  intro done k rest st₁ hsplit h
  refine .bind <| .insert fun now _ x st₂ hinsert => .pure ?_
  subst hsplit
  obtain ⟨_, _, hdistinct⟩ := List.nodup_append.mp hnodup
  have hnew : k ∉ done := by
    intro hk
    exact hdistinct k hk k List.mem_cons_self rfl
  exact h.insert hb hthrough hown hfk hother hfk' hapart hpk hnew (hnull k (by simp)) hinsert

end Links

section Relink

variable {through : Model} {own other : String} {f g : Field} {links : List Value} (hread : reg.Readable)
  (hb : Registry.build decls = .ok reg) (hthrough : through ∈ reg.models) (hown : reg.field? through own = some f)
  (hfk : f.isForeignKey) (hother : reg.field? through other = some g) (hfk' : g.isForeignKey) (ho : Orderly reg st)
  (hrefs : PlainReferences reg st) (hpk : pk.isPlain) (hkeys : ∀ k ∈ keys, k.isPlain)
include hread hb hthrough hown hfk hother hfk' ho hrefs hpk hkeys

/-- No row is deleted that links another owner, or the owner to a listed key. -/
theorem mem_keys_of_listed {y : Value} (hfree : ∀ level ∈ family reg through, Unreferred reg level)
    (hdelete : delete reg st (unlistedLinks through own other pk keys) = .ok (n, st₁)) (hy : y ∈ st.keys through)
    (hlisted : cell reg st through y own = pk → cell reg st through y other ∈ keys) : y ∈ st₁.keys through := by
  have hselect := select_unlistedLinks hread hb hthrough hown hfk hother hfk' st pk keys
  refine mem_keys_delete ho hthrough hfree hselect hdelete hy fun hyp => ?_
  obtain ⟨_, hunlisted⟩ := List.mem_filter.mp hyp
  rw [Bool.and_eq_true, Bool.not_eq_true', ← Bool.not_eq_true,
    holds_exact_iff hpk (hrefs.cell hb ho.inherits hthrough hown hfk hy),
    holds_oneOf_iff_mem hkeys (hrefs.cell hb ho.inherits hthrough hother hfk' hy)] at hunlisted
  exact hunlisted.2 (hlisted hunlisted.1)

/-- Once the links that are not listed were deleted and those that were missing then were added, the links of the owner
are replaced. -/
theorem relinked_of_added (hfree : ∀ level ∈ family reg through, Unreferred reg level)
    (hdelete : delete reg st (unlistedLinks through own other pk keys) = .ok (n, st₁))
    (hlinks : ∀ k, k ∈ links ↔ k ∈ keys ∧ ¬LinksTo reg st₁ through own other pk k)
    (hadded : LinksAdded reg through own other pk st₁ links st₂) : Relinked reg through own other pk keys st st₂ := by
  have hr := Registry.rooted_of_build hb
  have ho₁ : Orderly reg st₁ := ho.delete hr hthrough hdelete
  have hrefs₁ : PlainReferences reg st₁ := hrefs.delete hr ho hthrough hdelete
  have honly := (linksOnly_iff hb hthrough hown hfk ho₁.inherits hrefs₁ hpk hother hfk' hkeys).mp
    (linksOnly_of_delete hread hb hthrough hown hfk hother hfk' ho hdelete)
  have hlinked : ∀ k, LinksTo reg st₁ through own other pk k ↔
      ∃ y ∈ st₁.keys through, cell reg st₁ through y own = pk ∧ cell reg st₁ through y other = k :=
    fun _ => linksTo_iff hb hthrough hown hfk ho₁.inherits hrefs₁ hpk
  have hleft : ∀ y ∈ st₁.keys through, Untouched reg through st st₁ y := by
    intro y hy
    exact untouched_of_delete hr ho hthrough hthrough hdelete hy
  have hstay : ∀ y ∈ st.keys through, (cell reg st through y own = pk → cell reg st through y other ∈ keys) →
      Untouched reg through st st₂ y := by
    intro y hy hlisted
    have hmem := mem_keys_of_listed hread hb hthrough hown hfk hother hfk' ho hrefs hpk hkeys hfree hdelete hy hlisted
    exact (hleft y hmem).trans (hadded.old y hmem)
  constructor
  case linked =>
    intro k
    constructor
    · rintro ⟨y, hy, howned, rfl⟩
      by_cases hold : y ∈ st₁.keys through
      · rw [(hadded.old y hold).cells] at howned ⊢
        exact honly y hold howned
      · exact ((hlinks _).mp (hadded.new y hy hold).2).1
    · intro hk
      by_cases hthere : LinksTo reg st₁ through own other pk k
      · obtain ⟨y, hy, howned, hkey⟩ := (hlinked k).mp hthere
        have hafter := hadded.old y hy
        exact ⟨y, hafter.stands, (hafter.cells own).trans howned, (hafter.cells other).trans hkey⟩
      · exact hadded.linked k ((hlinks k).mpr ⟨hk, hthere⟩)
  case kept =>
    intro y hy _ hlisted
    exact hstay y hy fun _ => hlisted
  case others =>
    intro y hy hforeign
    exact hstay y hy fun howned => absurd howned hforeign
  case rows =>
    intro y hy
    by_cases hold : y ∈ st₁.keys through
    · left
      exact ⟨((delete_shrinks hdelete).keys through).subset hold, (hleft y hold).trans (hadded.old y hold)⟩
    · right
      refine ⟨(hadded.new y hy hold).1, ?_⟩
      intro z hz howned hsame
      by_cases hzold : z ∈ st₁.keys through
      · -- The key of a new row was missing, so that no row from before links it.
        rw [(hadded.old z hzold).cells] at howned hsame
        exact absurd ((hlinked _).mpr ⟨z, hzold, howned, hsame⟩) ((hlinks _).mp (hadded.new y hy hold).2).2
      · exact hadded.once y hy hold z hz hzold hsame

/-- Assigning keys to an owner replaces its links. -/
theorem assign_relinks (hapart : through.fieldName own ≠ through.fieldName other)
    (hfree : ∀ level ∈ family reg through, Unreferred reg level) (hnodup : keys.Nodup) :
    Job.Ends database reg times st ((RelationWrite.manyToMany through own other).assign database pk keys false)
      fun _ st' => Relinked reg through own other pk keys st st' := by
  have hr := Registry.rooted_of_build hb
  refine .bind <| .delete rfl fun n st₁ hdelete => .bind <| .fetch rfl fun rows hrows => ?_
  have hinherits : Inherits reg st₁ := (ho.delete hr hthrough hdelete).inherits
  refine (insertLinks_ends hb hthrough hown hfk hother hfk' hapart hpk hinherits (hnodup.filter _) ?_).imp ?_
  · intro k hk
    exact Value.isNull_of_isPlain (hkeys k (List.mem_filter.mp hk).1)
  intro _ st₂ hadded
  apply relinked_of_added hread hb hthrough hown hfk hother hfk' ho hrefs hpk hkeys hfree hdelete _ hadded
  intro k
  rw [List.mem_filter, Bool.not_eq_true', ← Bool.not_eq_true, List.contains_iff_mem,
    mem_present_iff hread hb hthrough hown hfk hother hfk' hrows]

end Relink

/-! ## References -/

section Redirect

variable {related : Model} {f : Field} (hread : reg.Readable) (hb : Registry.build decls = .ok reg)
  (hrelated : related ∈ reg.models) (hf : f ∈ related.own) (hfk : f.isForeignKey) (ho : Orderly reg st)
  (hrefs : PlainReferences reg st) (hpk : pk.isPlain) (hkeys : ∀ k ∈ keys, k.isPlain)
include hread hb hrelated hf hfk ho hrefs hpk hkeys

/-- Assigning keys to an owner directs a foreign key at it. -/
theorem assign_redirects :
    Job.Ends database reg times st ((RelationWrite.reverse related f.name true).assign database pk keys false)
      fun _ st' => Redirected reg related f.name pk keys st st' := by
  have hconcrete := isConcrete_of_isForeignKey hfk
  have hplain : ∀ y ∈ st.keys related, y.isPlain := ho.plain related hrelated
  have hne : pk ≠ .null := Value.ne_null_of_isPlain hpk
  have hlisted : ∀ y ∈ st.keys related, (Lookup.oneOf keys).holds y = true ↔ y ∈ keys := by
    intro y hy
    exact holds_oneOf_iff_mem hkeys (.inr (hplain y hy))
  refine .bind <| .update rfl fun n st₁ hclear => ?_
  have hkeys₁ : st₁.keys related = st.keys related := keys_update hb hrelated rfl hclear
  have hcleared : ∀ y ∈ st.keys related, cell reg st₁ related y f.name =
      if cell reg st related y f.name = pk ∧ y ∉ keys then .null else cell reg st related y f.name := by
    intro y hy
    rw [cell_update hb hrelated hf hconcrete rfl (select_otherRows hread hb hrelated hf hfk st pk keys) hclear hy]
    apply if_congr _ rfl rfl
    rw [List.mem_filter, Bool.and_eq_true, Bool.not_eq_true', ← Bool.not_eq_true,
      holds_exact_iff hpk (hrefs related hrelated f hf hfk y hy), hlisted y hy, and_iff_right hy]
  refine .ite (fun _ => .bind <| .update rfl fun n st₂ hset => .pure ?_) fun hnone => .pure ?_
  · apply Redirected.of_cells hne ((keys_update hb hrelated rfl hset).trans hkeys₁) hcleared
    intro y hy
    rw [cell_update hb hrelated hf hconcrete rfl (select_listed hread hb hrelated st₁ keys) hset (hkeys₁ ▸ hy)]
    apply if_congr _ rfl rfl
    rw [List.mem_filter, hlisted y hy, hkeys₁, and_iff_right hy]
  · obtain rfl : keys = [] := by simpa using hnone
    apply Redirected.of_cells hne hkeys₁ hcleared
    simp

end Redirect

/-! ## Whole assignments -/

namespace RelationWrite

/-- Assigning keys to an owner that was there before, where it succeeds, replaces its links, or directs a foreign key
that may be null at it. The keys are distinct, and they, those of the store and what its foreign keys hold are scalars
other than floats; links stand in two different columns, and no foreign key leads to the inheritance of their model. -/
theorem assign_assigned {w : World} {s : Schema} {f : SchemaField} {x : RelationWrite}
    (hb : Registry.build decls = .ok w.registry) (hread : w.registry.Readable) (hs : s.Declared w.registry)
    (hf : f ∈ s.fieldList) (hx : f.relationWrite = some x) (hapart : x.StandsApart w.registry)
    (ho : Orderly w.registry (w.database database).store) (hrefs : PlainReferences w.registry (w.database database).store)
    (hpk : pk.isPlain) (hkeys : ∀ k ∈ keys, k.isPlain) (hnodup : keys.Nodup)
    (hok : (w.runJob (x.assign database pk keys false)).1 = .ok ()) :
    x.Assigned w.registry pk keys (w.database database).store
      ((w.runJob (x.assign database pk keys false)).2.database database).store := by
  have hends : Job.Ends database w.registry (fun _ => True) (w.database database).store (x.assign database pk keys false)
      fun _ st' => x.Assigned w.registry pk keys (w.database database).store st' := by
    obtain ⟨level, _, hkept⟩ := hs.exists_kept hread hb hf hx
    cases hkept with
    | manyToMany hthrough hown hfk _ hother hfk' =>
        exact assign_relinks hread hb hthrough hown hfk hother hfk' ho hrefs hpk hkeys hapart.1 hapart.2 hnodup
    | @reverse related g hrelated hg hfk _ =>
        cases hnull : g.null with
        | false => exact fun _ _ _ _ _ _ h => absurd h Bool.false_ne_true
        | true =>
            exact (assign_redirects hread hb hrelated hg hfk ho hrefs hpk hkeys).imp fun _ _ h _ => h
  exact hends w rfl (fun _ _ => trivial) rfl () hok

end RelationWrite

/-! ## Follows and pairs -/

namespace Follows

open Registry (built modelOf)
open Retries (world stored schemaOf declared_schemaOf)

/-- Users who follow users, by links in two columns. -/
def user (own other : String) : ModelDecl :=
  { name := "user", fields := [.autoKey "id", .of "followings" (.manyToMany "user" "follow" own other (some "followers"))] }

def users (decls : List ModelDecl) (n : Nat) : List Call := List.replicate n (.insert (modelOf (built decls) "user") [])

def follow (decls : List ModelDecl) (values : Record) : Call := .insert (modelOf (built decls) "follow") values

/-- A schema of users whose followings can be saved. -/
def followings (decls : List ModelDecl) : Schema := schemaOf decls "user" ["id", "followings"]

def links (decls : List ModelDecl) (own other : String) : RelationWrite :=
  .manyToMany (modelOf (built decls) "follow") own other

/-- The first user is made to follow some users. -/
def assigned (decls : List ModelDecl) (calls : List Call) (own other : String) (keys : List Value) : Outcome Unit × World :=
  (world decls calls).runJob ((links decls own other).assign "default" (.int 1) keys false)

/-- Keys are assigned to the links that a field of a schema writes. They are distinct integers, as the keys of the
store are, all references lead to rows, and none leads to the links. -/
structure Assignment (decls : List ModelDecl) (calls : List Call) (own other : String) (keys : List Value) : Prop where
  builds : Registry.build decls = .ok (built decls)
  declared : (followings decls).Declared (built decls)
  writes : ∃ f ∈ (followings decls).fieldList, f.relationWrite = some (links decls own other)
  intact : Intact (built decls) (stored decls calls)
  inherits : Inherits (built decls) (stored decls calls)
  unreferred : Unreferred (built decls) (modelOf (built decls) "follow")
  plain : ∀ k ∈ keys, k.isPlain
  distinct : keys.Nodup
  succeeds : (assigned decls calls own other keys).1 = .ok ()

theorem assignment_of_run {decls : List ModelDecl} {calls : List Call} {own other : String} {keys : List Value}
    (hm : modelOf (built decls) "user" ∈ (built decls).models) (hb : Registry.build decls = .ok (built decls))
    (hs : Schema.build (built decls) {} "user" (modelOf (built decls) "user") (["id", "followings"].map fun path =>
      { name := path }) = .ok (followings decls))
    (hstore : (∃ f ∈ (followings decls).fieldList, f.relationWrite = some (links decls own other)) ∧
      Intact (built decls) (stored decls calls) ∧ Inherits (built decls) (stored decls calls) ∧
      Unreferred (built decls) (modelOf (built decls) "follow") ∧ (∀ k ∈ keys, k.isPlain) ∧ keys.Nodup)
    (hrun : (assigned decls calls own other keys).1.toOption = some ()) : Assignment decls calls own other keys := by
  obtain ⟨hwrites, hst, hi, hfree, hplain, hnodup⟩ := hstore
  exact ⟨hb, declared_schemaOf hm hs, hwrites, hst, hi, hfree, hplain, hnodup, Outcome.toOption_eq_some.mp hrun⟩

/-- The store once they follow them. -/
def after (decls : List ModelDecl) (calls : List Call) (own other : String) (keys : List Value) : Store :=
  ((assigned decls calls own other keys).2.database "default").store

/-- The links of the first user lead to the assigned keys and to no others. -/
def LeadsTo (decls : List ModelDecl) (calls : List Call) (own other : String) (keys : List Value) : Prop :=
  let through := modelOf (built decls) "follow"
  let st := after decls calls own other keys
  ∀ k, (∃ y ∈ st.keys through, cell (built decls) st through y own = .int 1 ∧ cell (built decls) st through y other = k) ↔
    k ∈ keys

/-- Follows in rows of their own. -/
def plainFollows : List ModelDecl :=
  [user "follower" "following",
    { name := "follow"
      fields := [.autoKey "id", .of "follower" (.foreignKey "user" (some "outgoing")),
        .of "following" (.foreignKey "user" (some "incoming"))] }]

/-- The first user follows the second and the third, who follows the second. -/
def plainCalls : List Call :=
  users plainFollows 4 ++ [follow plainFollows [("follower", .int 1), ("following", .int 2)],
    follow plainFollows [("follower", .int 1), ("following", .int 3)],
    follow plainFollows [("follower", .int 3), ("following", .int 2)]]

theorem readable_plainFollows : (built plainFollows).Readable where
  distinct := by decide
  undotted := by decide
  reserved := by decide
  keys := by decide
  sides := Registry.sidesAreDeclared_of_forward (by decide)

/-- The first user is made to follow the third and the fourth, and the third goes on to follow the second. -/
theorem follows_replaced :
    (Assignment plainFollows plainCalls "follower" "following" [.int 3, .int 4] ∧
      (built plainFollows).Readable ∧ (links plainFollows "follower" "following").StandsApart (built plainFollows) ∧
      PlainReferences (built plainFollows) (stored plainFollows plainCalls)) ∧
    (links plainFollows "follower" "following").Assigned (built plainFollows) (.int 1) [.int 3, .int 4]
      (stored plainFollows plainCalls) (after plainFollows plainCalls "follower" "following" [.int 3, .int 4]) := by
  have h : Assignment plainFollows plainCalls "follower" "following" [.int 3, .int 4] :=
    assignment_of_run (by decide +kernel) rfl rfl (by decide +kernel) (by decide +kernel)
  have hapart : (links plainFollows "follower" "following").StandsApart (built plainFollows) :=
    ⟨by decide +kernel, by decide +kernel⟩
  have hrefs : PlainReferences (built plainFollows) (stored plainFollows plainCalls) := by decide +kernel
  obtain ⟨f, hf, hx⟩ := h.writes
  refine ⟨⟨h, readable_plainFollows, hapart, hrefs⟩, ?_⟩
  exact RelationWrite.assign_assigned (w := world plainFollows plainCalls) h.builds readable_plainFollows h.declared hf hx
    hapart (h.intact.orderly h.inherits) hrefs rfl h.plain h.distinct h.succeeds

/-- Follows are entries, which may be based on entries. -/
def basedFollows : List ModelDecl :=
  [user "follower" "following",
    { name := "entry"
      fields := [.autoKey "id", { Field.of "basis" (.foreignKey "entry" (some "derived")) with null := true }] },
    { name := "follow", parent := some "entry"
      fields := [.of "follower" (.foreignKey "user" (some "outgoing")),
        .of "following" (.foreignKey "user" (some "incoming"))] }]

/-- The first and the third user follow the second, and the latter follow is based on the former. -/
def basedCalls : List Call :=
  users basedFollows 3 ++ [follow basedFollows [("follower", .int 1), ("following", .int 2)],
    follow basedFollows [("follower", .int 3), ("following", .int 2), ("basis", .int 1)]]

/-- Follows with one column for both sides. -/
def mutualFollows : List ModelDecl :=
  [user "user" "user",
    { name := "follow", fields := [.autoKey "id", .of "user" (.foreignKey "user" (some "follows"))] }]

/-- Follows with a column whose name reads like a path through another one. -/
def dottedFollows : List ModelDecl :=
  [user "by.id" "following",
    { name := "follow"
      fields := [.autoKey "id", .of "by.id" (.foreignKey "user" (some "outgoing")),
        .of "by" (.foreignKey "user" (some "signed")), .of "following" (.foreignKey "user" (some "incoming"))] }]

/-- The first user follows the second, who has signed it. -/
def dottedCalls : List Call :=
  users dottedFollows 2 ++ [follow dottedFollows [("by.id", .int 1), ("by", .int 2), ("following", .int 2)]]

/-- An assignment may take a follow of the third user, where a delete cascades through an entry that a follow is. It may
leave other links than those assigned, where both sides are one column, and where the name of a column is read as a
path. -/
theorem links_not_replaced :
    (Assignment basedFollows basedCalls "follower" "following" [.int 3] ∧
      (let through := modelOf (built basedFollows) "follow"
      .int 2 ∈ (stored basedFollows basedCalls).keys through ∧
        cell (built basedFollows) (stored basedFollows basedCalls) through (.int 2) "follower" = .int 3 ∧
        .int 2 ∉ (after basedFollows basedCalls "follower" "following" [.int 3]).keys through)) ∧
    (Assignment mutualFollows (users mutualFollows 2) "user" "user" [.int 2] ∧
      ¬LeadsTo mutualFollows (users mutualFollows 2) "user" "user" [.int 2]) ∧
    Assignment dottedFollows dottedCalls "by.id" "following" [] ∧
      ¬LeadsTo dottedFollows dottedCalls "by.id" "following" [] := by
  refine ⟨⟨?_, by decide +kernel⟩, ⟨?_, ?_⟩, ?_, ?_⟩
  · exact assignment_of_run (by decide +kernel) rfl rfl (by decide +kernel) (by decide +kernel)
  · exact assignment_of_run (by decide +kernel) rfl rfl (by decide +kernel) (by decide +kernel)
  · -- No row holds both users in its one column.
    intro h
    obtain ⟨y, _, howner, hkey⟩ := (h (.int 2)).mpr (List.mem_singleton.mpr rfl)
    exact absurd (howner.symm.trans hkey) (by decide)
  · exact assignment_of_run (by decide +kernel) rfl rfl (by decide +kernel) (by decide +kernel)
  · -- The follow is still there.
    intro h
    exact absurd ((h (.int 2)).mp ⟨.int 1, by decide +kernel, by decide +kernel, by decide +kernel⟩) List.not_mem_nil

end Follows

end RecordMapper
