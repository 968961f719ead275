import RecordMapper.Settings.Load
import RecordMapper.Proofs.Entries

/-!
# Merging — what a document laid over another leaves at every path

A path of names leads through objects to a document (`at?`). Laying a
document over another goes member by member where both are objects, and
so the member of a name is that of the upper document laid over that of
the lower one (`member?_overlay`). By induction on the path this gives
what stands at every path: what the upper document has there, laid over
what the lower one has, or what the lower one has if the upper one has
nothing there and nothing but objects above it (`LeavesOpen`).

The members of an object have an order. It is kept by merging, and both
the defaults and whatever is read to be laid over them come with it
(`ordered_settings`, `ordered_of_parse`).
-/

namespace RecordMapper.Json

def isObject : Json → Bool
  | .object _ => true
  | _ => false

/-- What stands at a path of names. -/
def at? : Json → List String → Option Json
  | j, [] => some j
  | j, name :: rest => (j.member? name).bind fun below => below.at? rest

/-- Above a path a document has nothing but objects, as far as it reaches. -/
def LeavesOpen (j : Json) (path : List String) : Prop :=
  ∀ above, above <+: path → above ≠ path → ∀ v, j.at? above = some v → v.isObject

/-- The members of an object, and of the objects in it, stand in the order of their names, each name
once. -/
inductive Ordered : Json → Prop
  | leaf {j : Json} (h : j.isObject = false) : Ordered j
  | object {members : List (String × Json)} (names : (members.map Prod.fst).Pairwise (· < ·))
      (below : ∀ m ∈ members, Ordered m.2) : Ordered (.object members)

/-- A document laid over another, or over nothing. -/
def overlayOn (base : Option Json) (top : Json) : Json := base.elim top (overlay · top)

variable {base top v w : Json} {members more : List (String × Json)} {name other : String} {path : List String}

/-! ## Members -/

theorem nodup_names (h : (members.map Prod.fst).Pairwise (· < ·)) : (members.map Prod.fst).Nodup := by
  refine h.imp ?_
  rintro k _ hlt rfl
  exact String.lt_irrefl k hlt

theorem lookup_insertMember_self : (insertMember name v members).lookup name = some v := by
  induction members with
  | nil => simp [insertMember]
  | cons m rest ih =>
      obtain ⟨k, w⟩ := m
      rw [insertMember]
      split
      · exact List.lookup_cons_self
      · split
        · exact List.lookup_cons_self
        · rename_i hne
          rw [List.lookup_cons, beq_eq_false_iff_ne.mpr hne]
          exact ih

theorem lookup_insertMember_ne (h : other ≠ name) :
    (insertMember name v members).lookup other = members.lookup other := by
  have hne : (other == name) = false := beq_eq_false_iff_ne.mpr h
  induction members with
  | nil => rw [insertMember, List.lookup_cons, hne]
  | cons m rest ih =>
      obtain ⟨k, w⟩ := m
      rw [insertMember]
      split
      · rw [List.lookup_cons, hne]
      · split
        · rename_i he
          subst he
          rw [List.lookup_cons, List.lookup_cons, hne]
        · rw [List.lookup_cons, List.lookup_cons, ih]

theorem mem_insertMember {m : String × Json} (h : m ∈ insertMember name v members) : m = (name, v) ∨ m ∈ members := by
  induction members with
  | nil => exact .inl (List.mem_singleton.mp h)
  | cons first rest ih =>
      obtain ⟨k, w⟩ := first
      rw [insertMember] at h
      split at h
      · exact List.mem_cons.mp h
      · split at h
        · exact (List.mem_cons.mp h).imp_right (List.mem_cons_of_mem _)
        · rcases List.mem_cons.mp h with rfl | h
          · exact .inr List.mem_cons_self
          · exact (ih h).imp_right (List.mem_cons_of_mem _)

theorem sorted_insertMember (h : (members.map Prod.fst).Pairwise (· < ·)) :
    ((insertMember name v members).map Prod.fst).Pairwise (· < ·) := by
  induction members with
  | nil => exact List.pairwise_singleton _ name
  | cons m rest ih =>
      obtain ⟨k, w⟩ := m
      rw [List.map_cons, List.pairwise_cons] at h
      rw [insertMember]
      split
      · rename_i hlt
        refine List.pairwise_cons.mpr ⟨List.forall_mem_cons.mpr ⟨hlt, fun n hn => ?_⟩, List.pairwise_cons.mpr h⟩
        exact String.lt_trans hlt (h.1 n hn)
      · split
        · rename_i he
          subst he
          exact List.pairwise_cons.mpr h
        · rename_i hnlt hne
          refine List.pairwise_cons.mpr ⟨fun n hn => ?_, ih h.2⟩
          obtain ⟨m, hm, rfl⟩ := List.mem_map.mp hn
          rcases mem_insertMember hm with rfl | hm
          · exact Std.lt_of_le_of_ne (String.not_lt.mp hnlt) (Ne.symm hne)
          · exact h.1 _ (List.mem_map_of_mem hm)

/-- Putting a member in that is there changes nothing. -/
theorem insertMember_of_lookup (h : (members.map Prod.fst).Pairwise (· < ·)) (hv : members.lookup name = some v) :
    insertMember name v members = members := by
  induction members with
  | nil => cases hv
  | cons m rest ih =>
      obtain ⟨k, w⟩ := m
      rw [List.map_cons, List.pairwise_cons] at h
      rw [List.lookup_cons] at hv
      by_cases he : name = k
      · subst he
        rw [beq_self_eq_true] at hv
        obtain rfl := Option.some.inj hv
        rw [insertMember, if_neg (String.lt_irrefl name), if_pos rfl]
      · rw [beq_eq_false_iff_ne.mpr he] at hv
        have hlt : k < name := h.1 name (mem_keys_of_lookup hv)
        rw [insertMember, if_neg (String.lt_asymm hlt), if_neg he, ih h.2 hv]

theorem Ordered.insertMember (h : (Json.object members).Ordered) (hv : v.Ordered) :
    (Json.object (insertMember name v members)).Ordered := by
  cases h with
  | leaf h => cases h
  | object names below =>
      refine .object (sorted_insertMember names) fun m hm => ?_
      rcases mem_insertMember hm with rfl | hm
      · exact hv
      · exact below m hm

/-- An object made of any members is ordered if they are. -/
theorem Ordered.ofMembers (h : ∀ m ∈ members, m.2.Ordered) : (Json.ofMembers members).Ordered :=
  List.foldlRecOn (motive := fun acc : List (String × Json) => (Json.object acc).Ordered) members _
    (.object List.Pairwise.nil nofun) fun _ hacc m hm => hacc.insertMember (h m hm)

/-! ## One document over another -/

theorem overlay_of_leaf (h : top.isObject = false) : base.overlay top = top := by
  cases top <;> first
    | rfl
    | cases h

theorem overlay_on_leaf (h : base.isObject = false) : base.overlay top = top := by
  cases base <;> cases top <;> first
    | rfl
    | cases h

theorem isObject_overlay (hbase : base.isObject) (htop : top.isObject) : (base.overlay top).isObject := by
  cases top with
  | object more =>
      cases base with
      | object members => rfl
      | _ => cases hbase
  | _ => cases htop

theorem overlayMembers_cons (base rest : List (String × Json)) (name : String) (v : Json) :
    overlayMembers base ((name, v) :: rest) =
      overlayMembers (insertMember name (overlayOn (base.lookup name) v) base) rest := by
  rw [overlayMembers]
  cases base.lookup name <;> rfl

theorem sorted_overlayMembers (h : (members.map Prod.fst).Pairwise (· < ·)) :
    ((overlayMembers members more).map Prod.fst).Pairwise (· < ·) := by
  induction more generalizing members with
  | nil => exact h
  | cons m rest ih =>
      rw [overlayMembers_cons]
      exact ih (sorted_insertMember h)

/-- A name of the upper members has its member laid over the one below, any other name the one below. -/
theorem lookup_overlayMembers (hmore : (more.map Prod.fst).Nodup) (name : String) :
    (overlayMembers members more).lookup name =
      match more.lookup name with
      | some v => some (overlayOn (members.lookup name) v)
      | none => members.lookup name := by
  induction more generalizing members with
  | nil => rfl
  | cons m rest ih =>
      obtain ⟨k, v⟩ := m
      rw [List.map_cons, List.nodup_cons] at hmore
      rw [overlayMembers_cons, ih hmore.2, List.lookup_cons]
      by_cases hk : name = k
      · subst hk
        rw [lookup_eq_none_iff_not_mem_keys.mpr hmore.1, beq_self_eq_true]
        exact lookup_insertMember_self
      · rw [beq_eq_false_iff_ne.mpr hk, lookup_insertMember_ne hk]

theorem member?_overlay (hmore : (more.map Prod.fst).Nodup) (name : String) :
    (base.overlay (.object more)).member? name =
      match more.lookup name with
      | some v => some (overlayOn (base.member? name) v)
      | none => base.member? name := by
  cases base with
  | object members => exact lookup_overlayMembers hmore name
  | _ =>
      show more.lookup name = _
      cases more.lookup name <;> rfl

/-- A merged document is ordered. -/
theorem Ordered.overlay (hbase : base.Ordered) (htop : top.Ordered) : (base.overlay top).Ordered := by
  induction htop generalizing base with
  | leaf h =>
      rw [overlay_of_leaf h]
      exact .leaf h
  | @object more names below ih =>
      cases hbase with
      | leaf h =>
          rw [overlay_on_leaf h]
          exact .object names below
      | @object members names' below' =>
          have hsorted : ((overlayMembers members more).map Prod.fst).Pairwise (· < ·) := sorted_overlayMembers names'
          refine .object hsorted fun m hm => ?_
          obtain ⟨name, v⟩ := m
          have hv := (lookup_eq_some_iff_mem (nodup_names hsorted)).mpr hm
          rw [lookup_overlayMembers (nodup_names names)] at hv
          split at hv
          · rename_i t ht
            obtain rfl := Option.some.inj hv
            cases hb : members.lookup name with
            | none => exact below _ (mem_of_lookup ht)
            | some b => exact ih _ (mem_of_lookup ht) (below' _ (mem_of_lookup hb))
          · exact below' _ (mem_of_lookup hv)

/-! ## Once more -/

/-- Members over which nothing new is laid stay. -/
theorem overlayMembers_eq_self (h : (members.map Prod.fst).Pairwise (· < ·))
    (hmore : ∀ m ∈ more, ∃ v, members.lookup m.1 = some v ∧ v.overlay m.2 = v) :
    overlayMembers members more = members := by
  induction more with
  | nil => rfl
  | cons m rest ih =>
      obtain ⟨v, hv, hself⟩ := hmore m List.mem_cons_self
      rw [overlayMembers_cons, hv, overlayOn, Option.elim_some, hself, insertMember_of_lookup h hv]
      exact ih fun m' hm' => hmore m' (List.mem_cons_of_mem m hm')

theorem overlay_overlay (hbase : base.Ordered) (htop : top.Ordered) :
    (base.overlay top).overlay top = base.overlay top := by
  induction htop generalizing base with
  | leaf h => rw [overlay_of_leaf h, overlay_of_leaf h]
  | @object more names below ih =>
      have hfound : ∀ m ∈ more, more.lookup m.1 = some m.2 := fun m hm =>
        (lookup_eq_some_iff_mem (nodup_names names)).mpr hm
      -- Over nothing it is as over a leaf: laid over itself a document stays.
      have hself : ∀ m ∈ more, m.2.overlay m.2 = m.2 := fun m hm => by
        have hnull : (Json.null.overlay m.2).overlay m.2 = Json.null.overlay m.2 := ih m hm (.leaf rfl)
        have hover : Json.null.overlay m.2 = m.2 := overlay_on_leaf rfl
        rwa [hover] at hnull
      cases hbase with
      | leaf h =>
          rw [overlay_on_leaf h]
          exact congrArg Json.object (overlayMembers_eq_self names fun m hm => ⟨m.2, hfound m hm, hself m hm⟩)
      | @object members names' below' =>
          refine congrArg Json.object (overlayMembers_eq_self (sorted_overlayMembers names') fun m hm => ?_)
          refine ⟨overlayOn (members.lookup m.1) m.2, ?_, ?_⟩
          · rw [lookup_overlayMembers (nodup_names names), hfound m hm]
          · cases hb : members.lookup m.1 with
            | none => exact hself m hm
            | some b => exact ih m hm (below' _ (mem_of_lookup hb))

/-! ## Path by path -/

theorem at?_cons_of_leaf (h : v.isObject = false) (name : String) (rest : List String) :
    v.at? (name :: rest) = none := by
  cases v <;> first
    | rfl
    | cases h

theorem not_leavesOpen_of_leaf (h : v.isObject = false) (name : String) (rest : List String) :
    ¬ v.LeavesOpen (name :: rest) := by
  intro hopen
  have hobject := hopen [] List.nil_prefix (List.cons_ne_nil name rest).symm v rfl
  rw [h] at hobject
  cases hobject

/-- Below an object a path is open if it is so in the member it goes through. -/
theorem leavesOpen_object (name : String) (rest : List String) :
    (object members).LeavesOpen (name :: rest) ↔ ∀ below, members.lookup name = some below → below.LeavesOpen rest := by
  constructor
  · intro hopen below hbelow above hprefix hne v hv
    refine hopen (name :: above) (List.cons_prefix_cons.mpr ⟨rfl, hprefix⟩) (by simpa using hne) v ?_
    rw [at?, member?, hbelow]
    exact hv
  · intro h above hprefix hne v hv
    cases above with
    | nil =>
        obtain rfl := Option.some.inj hv
        rfl
    | cons first above =>
        obtain ⟨rfl, hbelowPath⟩ := List.cons_prefix_cons.mp hprefix
        obtain ⟨below, hbelow, hv⟩ := Option.bind_eq_some_iff.mp hv
        exact h below hbelow above hbelowPath (by simpa using hne) v hv

/-- What the upper document has at a path is laid over what the lower one has there. -/
theorem at?_overlay_of_some (htop : top.Ordered) (h : top.at? path = some v) :
    (base.overlay top).at? path = some (overlayOn (base.at? path) v) := by
  induction path generalizing base top with
  | nil =>
      obtain rfl := Option.some.inj h
      rfl
  | cons name rest ih =>
      cases htop with
      | leaf hleaf =>
          rw [at?_cons_of_leaf hleaf] at h
          cases h
      | @object more names below =>
          obtain ⟨t, ht, h⟩ := Option.bind_eq_some_iff.mp h
          have ht : more.lookup name = some t := ht
          rw [at?, at?, member?_overlay (nodup_names names), ht]
          cases base.member? name with
          | none => exact h
          | some b => exact ih (below _ (mem_of_lookup ht)) h

/-- Where the upper document has nothing, what the lower one has stays, unless the path leads through a leaf of the
upper document. -/
theorem at?_overlay_of_none (htop : top.Ordered) (h : top.at? path = none) :
    top.LeavesOpen path ∧ (base.overlay top).at? path = base.at? path ∨
      ¬ top.LeavesOpen path ∧ (base.overlay top).at? path = none := by
  induction path generalizing base top with
  | nil => cases h
  | cons name rest ih =>
      cases htop with
      | leaf hleaf =>
          rw [overlay_of_leaf hleaf]
          exact .inr ⟨not_leavesOpen_of_leaf hleaf name rest, h⟩
      | @object more names below =>
          rw [leavesOpen_object, at?, at?, member?_overlay (nodup_names names)]
          cases ht : more.lookup name with
          | none => exact .inl ⟨nofun, rfl⟩
          | some t =>
              have h : t.at? rest = none := by
                rw [at?, member?, ht] at h
                exact h
              simp only [Option.some.injEq, forall_eq', Option.bind_some]
              cases base.member? name with
              | none =>
                  show _ ∧ t.at? rest = none ∨ _ ∧ t.at? rest = none
                  rw [h, and_iff_left rfl, and_iff_left rfl]
                  exact em _
              | some b => exact ih (below _ (mem_of_lookup ht)) h

/-- At every path of a merged document: a leaf of the upper document stands there; where the upper document has
nothing, and above nothing but objects, there is what the lower one has; an object of the upper document stands there
unless the lower one has an object too, which then is an object there; and there is nothing else. To merge a document a
second time makes no difference, and a merged document is one with ordered members again. -/
theorem overlay_at_every_path (hbase : base.Ordered) (htop : top.Ordered) :
    (∀ path v, top.at? path = some v → v.isObject = false → (base.overlay top).at? path = some v) ∧
      (∀ path, top.at? path = none → top.LeavesOpen path → (base.overlay top).at? path = base.at? path) ∧
      (∀ path v, top.at? path = some v → v.isObject → (∀ b, base.at? path = some b → b.isObject = false) →
        (base.overlay top).at? path = some v) ∧
      (∀ path v b, top.at? path = some v → v.isObject → base.at? path = some b → b.isObject →
        ∃ w, (base.overlay top).at? path = some w ∧ w.isObject) ∧
      (∀ path w, (base.overlay top).at? path = some w →
        (top.at? path).isSome ∨ top.at? path = none ∧ top.LeavesOpen path ∧ base.at? path = some w) ∧
      (base.overlay top).overlay top = base.overlay top ∧ (base.overlay top).Ordered := by
  have hnone : ∀ path, top.at? path = none →
      top.LeavesOpen path ∧ (base.overlay top).at? path = base.at? path ∨
        ¬ top.LeavesOpen path ∧ (base.overlay top).at? path = none := fun path => at?_overlay_of_none htop
  refine ⟨fun path v hv hleaf => ?_, fun path hpath hopen => ?_, fun path v hv _ hb => ?_, fun path v b hv hvo hb hbo => ?_,
    fun path w hw => ?_, overlay_overlay hbase htop, hbase.overlay htop⟩
  · rw [at?_overlay_of_some htop hv, overlayOn]
    cases base.at? path with
    | none => rfl
    | some b => exact congrArg some (overlay_of_leaf hleaf)
  · rcases hnone path hpath with ⟨_, hstays⟩ | ⟨hblocked, _⟩
    · exact hstays
    · exact absurd hopen hblocked
  · rw [at?_overlay_of_some htop hv, overlayOn]
    cases hat : base.at? path with
    | none => rfl
    | some b => exact congrArg some (overlay_on_leaf (hb b hat))
  · refine ⟨_, at?_overlay_of_some htop hv, ?_⟩
    rw [hb, overlayOn, Option.elim_some]
    exact isObject_overlay hbo hvo
  · cases hpath : top.at? path with
    | some v => exact .inl rfl
    | none =>
        rcases hnone path hpath with ⟨hopen, hstays⟩ | ⟨_, hnothing⟩
        · exact .inr ⟨rfl, hopen, hstays.symm.trans hw⟩
        · rw [hnothing] at hw
          cases hw

/-! ## Documents that are read -/

/-- A value that is read is ordered, and so is an object to which members are added as they are read. -/
theorem ordered_read (fuel : Nat) :
    (∀ depth cs r, readValue fuel depth cs = some r → r.1.Ordered) ∧
      ∀ depth acc cs r, readMembers fuel depth acc cs = some r → (Json.object acc).Ordered → (Json.object r.1).Ordered := by
  induction fuel with
  | zero =>
      refine ⟨fun _ _ _ h => ?_, fun _ _ _ _ h _ => ?_⟩
      · rw [readValue] at h
        cases h
      · unfold readMembers at h
        cases h
  | succ fuel ih =>
      obtain ⟨hvalue, hmembers⟩ := ih
      refine ⟨fun depth cs r h => ?_, fun depth acc cs r h hacc => ?_⟩
      · unfold readValue at h
        simp only at h
        split at h
        case h_7 =>
          split at h
          · cases h
          · split at h
            · cases h
              exact .object List.Pairwise.nil nofun
            · obtain ⟨read, hread, rfl⟩ := Option.map_eq_some_iff.mp h
              exact hmembers _ _ _ _ hread (.object List.Pairwise.nil nofun)
        -- Whatever else is read is no object.
        case h_1 => cases h
        case h_6 =>
          split at h
          · cases h
          · split at h
            · cases h
              exact .leaf rfl
            · obtain ⟨read, hread, rfl⟩ := Option.map_eq_some_iff.mp h
              exact .leaf rfl
        all_goals
          obtain ⟨read, hread, rfl⟩ := Option.map_eq_some_iff.mp h
          exact .leaf rfl
      · unfold readMembers at h
        simp only [Option.bind_eq_bind, Option.bind_eq_some_iff] at h
        obtain ⟨⟨key, cs⟩, _, h⟩ := h
        simp only at h
        split at h
        · obtain ⟨⟨v, cs⟩, hv, h⟩ := Option.bind_eq_some_iff.mp h
          have hinserted : (Json.object (insertMember key v acc)).Ordered := hacc.insertMember (hvalue _ _ _ hv)
          simp only at h
          split at h
          · cases h
            exact hinserted
          · exact hmembers _ _ _ _ h hinserted
          · cases h
        · cases h

mutual

/-- What a TOML document means is ordered. -/
theorem ordered_meaning : ∀ {t : Toml} {j : Json}, t.toJson? = some j → j.Ordered
  | .text _, j, h | .integer _, j, h | .bool _, j, h | .time _, j, h => by
      cases h
      exact .leaf rfl
  | .float x, j, h => by
      cases h
      refine .leaf ?_
      rw [ofFloat]
      split <;> rfl
  | .array items, j, h => by
      obtain ⟨js, _, rfl⟩ := Option.map_eq_some_iff.mp h
      exact .leaf rfl
  | .inline entries, j, h => ordered_tableMeaning h
  | .table _ entries, j, h => ordered_tableMeaning h
  | .tables rows, j, h => by
      obtain ⟨js, _, rfl⟩ := Option.map_eq_some_iff.mp h
      exact .leaf rfl

theorem ordered_tableMeaning : ∀ {entries : List (String × Toml)} {j : Json}, Toml.tableToJson? entries = some j →
    j.Ordered
  | [], j, h => by
      cases h
      exact .ofMembers nofun
  | (k, t) :: rest, j, h => by
      rw [Toml.tableToJson?] at h
      split at h
      · unfold Toml.spelledTime? at h
        split at h
        · split at h
          · cases h
            exact .leaf rfl
          · cases h
        · cases h
      · obtain ⟨v, hv, h⟩ := Option.bind_eq_some_iff.mp h
        obtain ⟨members, hmembers, h⟩ := Option.bind_eq_some_iff.mp h
        cases h
        exact .ofMembers (List.forall_mem_cons.mpr ⟨ordered_meaning hv, ordered_entryMeanings hmembers⟩)

theorem ordered_entryMeanings : ∀ {entries : List (String × Toml)} {members : List (String × Json)},
    Toml.entriesToJson? entries = some members → ∀ m ∈ members, m.2.Ordered
  | [], members, h => by
      cases h
      exact nofun
  | (k, t) :: rest, members, h => by
      obtain ⟨v, hv, h⟩ := Option.bind_eq_some_iff.mp h
      obtain ⟨below, hbelow, h⟩ := Option.bind_eq_some_iff.mp h
      cases h
      exact List.forall_mem_cons.mpr ⟨ordered_meaning hv, ordered_entryMeanings hbelow⟩

end

/-- A document that is read from settings is ordered. -/
theorem ordered_of_parse {f : SettingsFormat} {text : String} {j : Json} (h : f.parse? text = some j) : j.Ordered := by
  cases f with
  | toml =>
      obtain ⟨t, _, ht⟩ := Option.bind_eq_some_iff.mp h
      exact ordered_meaning ht
  | json =>
      obtain ⟨r, hr, h⟩ := Option.bind_eq_some_iff.mp h
      obtain ⟨_, _, h⟩ := Option.bind_eq_some_iff.mp h
      cases h
      exact (ordered_read _).1 _ _ _ hr

/-! ## Settings -/

theorem ordered_database (d : DatabaseSettings) : (encode d).Ordered := by
  refine .ofMembers ?_
  simp only [List.forall_mem_cons, List.not_mem_nil, false_imp_iff, implies_true, and_true]
  refine ⟨.leaf rfl, .leaf rfl, .leaf rfl, .leaf rfl, .ofMembers fun m hm => ?_⟩
  obtain ⟨e, _, rfl⟩ := List.mem_map.mp hm
  exact .leaf rfl

theorem ordered_query (q : QuerySettings) : (encode q).Ordered := by
  refine .ofMembers ?_
  simp only [List.forall_mem_cons, List.not_mem_nil, false_imp_iff, implies_true, and_true]
  have hlimit : (encode q.maxLimit).isObject = false := by
    cases q.maxLimit <;> rfl
  exact ⟨.leaf rfl, .leaf hlimit, .leaf rfl, .leaf rfl⟩

/-- The document of settings is ordered. -/
theorem ordered_settings (s : Settings) : (encode s).Ordered := by
  refine .ofMembers ?_
  simp only [List.forall_mem_cons, List.not_mem_nil, false_imp_iff, implies_true, and_true]
  refine ⟨.leaf rfl, .leaf rfl, .ofMembers fun m hm => ?_, .leaf rfl, ordered_query s.query⟩
  obtain ⟨d, _, rfl⟩ := List.mem_map.mp hm
  exact ordered_database d.2

/-- A document that caps the number of rows and mentions no other setting. -/
def capped : Json := .object [("query", .object [("max_limit", .int 100)])]

theorem ordered_capped : capped.Ordered :=
  .object (List.pairwise_singleton _ _) (List.forall_mem_singleton.mpr
    (.object (List.pairwise_singleton _ _) (List.forall_mem_singleton.mpr (.leaf rfl))))

/-- Laid over the defaults, the document gives its one setting; the other settings of its table and those beside it are
the defaults. -/
theorem capped_over_defaults :
    (encode (default : Settings)).Ordered ∧ capped.Ordered ∧
      ((encode (default : Settings)).overlay capped).at? ["query", "max_limit"] = some (.int 100) ∧
      ((encode (default : Settings)).overlay capped).at? ["query", "order_prefix"] = some (.text "-") ∧
      ((encode (default : Settings)).overlay capped).at? ["databases", "default", "engine"] = some (.text "memory") ∧
      ((encode (default : Settings)).overlay capped).overlay capped = (encode (default : Settings)).overlay capped := by
  have hbase := ordered_settings default
  obtain ⟨hleaf, hstays, -, -, -, hagain, -⟩ := overlay_at_every_path hbase ordered_capped
  have hquery : capped.LeavesOpen ["query", "order_prefix"] := by
    refine (leavesOpen_object _ _).mpr fun below hbelow => ?_
    obtain rfl := Option.some.inj hbelow
    exact (leavesOpen_object _ _).mpr nofun
  have hdatabases : capped.LeavesOpen ["databases", "default", "engine"] := (leavesOpen_object _ _).mpr nofun
  exact ⟨hbase, ordered_capped, hleaf _ _ rfl rfl, (hstays _ rfl hquery).trans rfl, (hstays _ rfl hdatabases).trans rfl,
    hagain⟩

end RecordMapper.Json
