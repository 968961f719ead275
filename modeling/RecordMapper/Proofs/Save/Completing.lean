import RecordMapper.Proofs.Save.Listed
import RecordMapper.Proofs.Save.Skipped
import RecordMapper.Proofs.Save.Written
import RecordMapper.Proofs.Steps.Leading
import RecordMapper.Proofs.Store.Cells

/-!
# Completing — keys that some tables of an inheritance hold already

A save of a key whose row stands overwrites it, one whose parent's row
stands puts a row below that, and one whose key is new to the whole
inheritance creates all rows. In the end every table of the inheritance
holds the key and no other table has gained one (`Completed`), unless the
row as it is written violates a constraint.

What is missing is a row between the parent and the root. A key that the
root's table holds and the parent's does not (`Severed`) is taken for a
new one, and the creation of its row is refused by the root's table.
-/

namespace RecordMapper

open Store

namespace Store

variable {reg : Registry} {st st' : Store} {m parent : Model} {pk : Value}

/-- The root of an inheritance holds a key that the table of a model's parent does not hold. -/
def Severed (reg : Registry) (st : Store) (m : Model) (pk : Value) : Prop :=
  pk ∈ st.keys (reg.rootOf m) ∧ ∃ parent, reg.parent? m = some parent ∧ pk ∉ st.keys parent

theorem not_severed_of_parent (hparent : reg.parent? m = some parent) (hstands : pk ∈ st.keys parent) :
    ¬Severed reg st m pk := by
  rintro ⟨_, parent', hparent', hmissing⟩
  obtain rfl : parent = parent' := Option.some.inj (hparent.symm.trans hparent')
  exact hmissing hstands

/-- A key that the model's own table holds stands in the whole inheritance. -/
theorem not_severed_of_stands (hr : reg.Rooted) (hm : m ∈ reg.models) (hi : Inherits reg st) (hstands : pk ∈ st.keys m) :
    ¬Severed reg st m pk := fun ⟨_, _, hparent, hmissing⟩ =>
  hmissing (hi m hm _ (hr.parent_mem_lineage hm hparent) hstands)

/-- A store in which a key has been added to all tables of an inheritance that did not hold it, and to no other. -/
def Completed (reg : Registry) (m : Model) (pk : Value) (st st' : Store) : Prop :=
  ∀ m' ∈ reg.models, ∀ k, k ∈ st'.keys m' ↔ k ∈ st.keys m' ∨ k = pk ∧ m' ∈ reg.lineage m

theorem Completed.stands (h : Completed reg m pk st st') (hr : reg.Rooted) (hm : m ∈ reg.models) {level : Model}
    (hl : level ∈ reg.lineage m) : pk ∈ st'.keys level :=
  (h level (hr.mem_models hm hl) pk).mpr (.inr ⟨rfl, hl⟩)

/-- A store whose tables hold the keys of another one is completed where a key stood in the whole inheritance. -/
theorem completed_of_keys (hkeys : ∀ m' ∈ reg.models, st'.keys m' = st.keys m')
    (hstands : ∀ level ∈ reg.lineage m, pk ∈ st.keys level) : Completed reg m pk st st' := by
  intro m' hm' k
  rw [hkeys m' hm']
  exact ⟨.inl, fun h => h.elim id fun hnew => hnew.1 ▸ hstands m' hnew.2⟩

theorem Completed.congr {st'' : Store} (h : Completed reg m pk st st')
    (hkeys : ∀ m' ∈ reg.models, st''.keys m' = st'.keys m') : Completed reg m pk st st'' := by
  intro m' hm' k
  rw [hkeys m' hm']
  exact h m' hm' k

section Writes

variable (hr : reg.Rooted) (hm : m ∈ reg.models)
include hr hm

/-- A row below a parent's completes an inheritance of which the rest holds the key. -/
theorem completed_of_setRow (hi : Inherits reg st) (hparent : reg.parent? m = some parent) (habove : pk ∈ st.keys parent)
    (row : Record) : Completed reg m pk st (st.setRow m pk row) := by
  intro m' hm' k
  by_cases he : m' = m
  · subst he
    rw [mem_keys_setRow, or_comm]
    exact or_congr .rfl ⟨fun h => ⟨h, reg.self_mem_lineage m'⟩, And.left⟩
  · rw [keys, table_setRow_of_ne hr hm hm' he]
    refine ⟨.inl, fun h => h.elim id fun hnew => ?_⟩
    obtain ⟨rfl, hl⟩ := hnew
    rw [hr.lineage_of_parent hm hparent] at hl
    exact hi parent (Registry.parent?_eq_some hparent).2 m' ((List.mem_cons.mp hl).resolve_left he) habove

theorem completed_of_insert {now : Instant} {values : Record} (h : insert reg now st m values = .ok (pk, st')) :
    Completed reg m pk st st' := by
  intro m' hm' k
  rcases insert_rows hr hm h hm' with ⟨hl, row, hrows⟩ | ⟨hout, htable⟩
  · rw [keys_congr hrows, mem_keys_setRow, or_comm]
    exact or_congr .rfl ⟨fun hk => ⟨hk, hl⟩, And.left⟩
  · rw [keys, htable]
    exact ⟨.inl, fun h => h.elim id fun hnew => absurd hnew.2 hout⟩

end Writes

theorem KeyIsColumn.namesColumn (h : KeyIsColumn reg m) : NamesColumn reg m m.pkName := by
  obtain ⟨p, hp, hdirect, hname, hconcrete⟩ := h
  obtain ⟨name, _, hfield⟩ := Registry.name_of_direct hp hdirect
  rw [Registry.field_eq_ok] at hfield
  refine ⟨p.last.field, ?_, hconcrete⟩
  rwa [Registry.field?, Registry.fieldName_pkName, ← hname, Registry.name_eq_of_field? hfield]

/-- The table of a model with a parent has a column for the key. -/
theorem KeyIsColumn.mem_localColumns (h : KeyIsColumn reg m) (hparent : reg.parent? m = some parent) :
    (reg.localColumns m).any (·.name == m.pkName) := by
  obtain ⟨f, hf, _⟩ := h.namesColumn
  rw [Registry.localColumns, if_pos (by rw [(Registry.parent?_eq_some hparent).1]; rfl), Registry.pkField?, hf,
    List.any_append, Option.toList_some, List.any_cons, Registry.name_of_field_pkName hf, beq_self_eq_true,
    Bool.true_or, Bool.true_or]

theorem contains_iff_of_isPlain (hplain : pk.isPlain) : st.contains m pk = true ↔ pk ∈ st.keys m := by
  refine ⟨fun h => ?_, contains_of_mem⟩
  obtain ⟨row, hrow⟩ := Option.isSome_iff_exists.mp h
  have hmem := Keyed.seat_mem_of_get? hrow
  rwa [Keyed.seat_of_isPlain hplain] at hmem

/-- Where no key is a float, a plain key selects its own row if that stands. -/
theorem select_plainKey (hcolumn : KeyIsColumn reg m) (hplain : pk.isPlain) (hfloat : ∀ k ∈ st.keys m, ∀ x, k ≠ .float x) :
    ∃ pks, select reg st ((Queryset.all m).pkIn [pk]) = .ok pks ∧ (∀ k ∈ pks, k = pk) ∧ (pks = [] ↔ pk ∉ st.keys m) := by
  have hselect : select reg st ((Queryset.all m).pkIn [pk]) = _ := select_pkIn hcolumn [pk]
  have hself : ∀ k, pathValues reg st m k m.pkName = .ok [k] := fun k => by
    obtain ⟨_, hp, hdirect, hname, hconcrete⟩ := hcolumn
    exact pathValues_key hp hdirect hname hconcrete
  refine ⟨_, hselect, fun k hk => (eq_of_mem_select_pkIn hself hfloat hplain hselect k hk).1, ?_⟩
  refine ⟨fun hnone hmem => ?_, fun hmissing => List.eq_nil_iff_forall_not_mem.mpr fun k hk => ?_⟩
  · have hfound := List.mem_filter.mpr ⟨hmem, holds_oneOf_of_isPlain (List.mem_singleton.mpr rfl) hplain⟩
    rw [hnone] at hfound
    cases hfound
  · exact hmissing (eq_of_mem_select_pkIn hself hfloat hplain hselect k hk).2

end Store

namespace Save

variable {app : Application} {t : WriteTarget} {reg : Registry} {times : Instant → Prop} {s : Schema}
  {o : SaveOptions} {data : Record} {st : Store} {pk : Value}

/-- The columns of a new row of some data. -/
def newColumns (s : Schema) (now : Instant) (pk : Value) (data : Record) : Record :=
  (SaveParts.split s .create data).createColumns s now (some pk) []

/-- The store with a new row below a parent's. -/
def putBelow (reg : Registry) (s : Schema) (now at' : Instant) (pk : Value) (data : Record) (st : Store) : Store :=
  st.setRow s.model pk (localRow reg at' s.model pk ((newColumns s now pk data).localTo reg s.model))

/-- The stores that a save of a row comes to, at certain times, before the constraints of the row are checked. -/
inductive Tries (reg : Registry) (times : Instant → Prop) (s : Schema) (data : Record) (pk : Value) (st : Store) :
    Store → Prop
  | found {now : Instant} {pks : List Value} (time : times now) (own : ∀ k ∈ pks, k = pk)
    (stands : pk ∈ st.keys s.model) :
    Tries reg times s data pk st
      (overwrite reg s.model ((SaveParts.split s .update data).updateColumns s now []) pks st)
  | below {now at' : Instant} {above : Model} (time : times now) (missing : pk ∉ st.keys s.model)
    (parent : reg.parent? s.model = some above) (stands : pk ∈ st.keys above) :
    Tries reg times s data pk st (putBelow reg s now at' pk data st)
  | extended {now at' : Instant} {above : Model} {pks : List Value} (time : times now) (own : ∀ k ∈ pks, k = pk)
    (missing : pk ∉ st.keys s.model) (parent : reg.parent? s.model = some above) (stands : pk ∈ st.keys above) :
    Tries reg times s data pk st
      (overwrite reg s.model ((newColumns s now pk data).withoutKey s.model) pks (putBelow reg s now at' pk data st))
  | created {now at' : Instant} (time : times now) (missing : pk ∉ st.keys (reg.rootOf s.model)) :
    Tries reg times s data pk st
      (setRows (fun level => localRow reg at' level pk (newColumns s now pk data)) pk
        (noteKey st (reg.rootOf s.model) pk) (reg.lineage s.model).reverse)

/-- The row of a key, as a save writes it, violates a constraint. -/
def Offends (reg : Registry) (times : Instant → Prop) (s : Schema) (data : Record) (pk : Value) (st : Store)
    (f : Failure) : Prop :=
  ∃ tried, Tries reg times s data pk st tried ∧ checkRow reg tried s.model pk = .error f

/-- What the writing of a row comes to: all tables of the inheritance hold its key in the end, or it violates a
constraint. Where the inheritance is severed it is refused instead. -/
def Settles (reg : Registry) (times : Instant → Prop) (s : Schema) (data : Record) (pk : Value) (st : Store)
    (r : Outcome WrittenRow) (st' : Store) : Prop :=
  match r with
  | .ok row => ¬Severed reg st s.model pk ∧ row.pk = pk ∧ Completed reg s.model pk st st'
  | .error f => (¬Severed reg st s.model pk ∧ Offends reg times s data pk st f) ∨
    Severed reg st s.model pk ∧ f = .uniqueViolated (reg.rootOf s.model).name s.model.pkName ∧ st' = st

/-- What comes of the update of a plain key's row, where no key is a float. -/
theorem update_target {values : Record} (hcolumn : KeyIsColumn reg s.model) (hplain : pk.isPlain)
    (hfloat : ∀ k ∈ st.keys s.model, ∀ x, k ≠ .float x) (hvalues : Updatable reg s.model values) :
    match update reg st (target s pk) values with
    | .ok (n, st') => ∃ pks, (∀ k ∈ pks, k = pk) ∧ (pks = [] ↔ pk ∉ st.keys s.model) ∧ n = pks.length ∧
        st' = overwrite reg s.model values pks st
    | .error f => ∃ pks, (∀ k ∈ pks, k = pk) ∧ pk ∈ st.keys s.model ∧
        checkRow reg (overwrite reg s.model values pks st) s.model pk = .error f := by
  obtain ⟨pks, hselect, hpks, hnone⟩ := select_plainKey hcolumn hplain hfloat
  have hupdate : update reg st (target s pk) values = _ := update_eq hvalues hselect
  cases hr : update reg st (target s pk) values with
  | ok r =>
      obtain ⟨_, _, h⟩ := Outcome.bind_eq_ok.mp (hupdate.symm.trans hr)
      cases h
      exact ⟨pks, hpks, hnone, rfl, rfl⟩
  | error f =>
      have hcheck := Outcome.error_of_bind_pure (hupdate.symm.trans hr)
      obtain ⟨k, hk, hcheck⟩ := Outcome.exists_of_forM_error hcheck
      obtain rfl := hpks k hk
      exact ⟨pks, hpks, by_contra fun hmissing => List.ne_nil_of_mem hk (hnone.mpr hmissing), hcheck⟩

section Row

variable (hr : reg.Rooted) (hs : s.Declared reg) (hcolumns : ∀ level ∈ reg.lineage s.model, KeyIsColumn reg level)
  (hkey : s.keyOf? data = some pk) (hplain : pk.isPlain)
  (hfloat : ∀ level ∈ reg.lineage s.model, ∀ k ∈ st.keys level, ∀ x, k ≠ .float x) (hi : Inherits reg st)

include hr hs hcolumns hplain

/-- What comes of the insert of a new row, where neither the model's own table nor the parent's holds the key. -/
theorem insert_settles {now : Instant} (at' : Instant) (data : Record) (hnow : times now) (hmissing : pk ∉ st.keys s.model)
    (hparent : ∀ parent, reg.parent? s.model = some parent → pk ∉ st.keys parent) :
    match insert reg at' st s.model (newColumns s now pk data) with
    | .ok (key, st') => Settles reg times s data pk st (.ok ⟨key, true, SaveParts.split s .create data⟩) st'
    | .error f => Settles reg times s data pk st (.error f) st := by
  have hm := hs.mem_models
  have hnamed := (hcolumns s.model (reg.self_mem_lineage s.model)).namesColumn
  obtain ⟨pkField, hfield, _⟩ := id hnamed
  rw [← Registry.field_eq_ok] at hfield
  have hrow : NamesRow reg s.model (some pk) (newColumns s now pk data) := namesRow_createColumns hs now pk data
  have hcheck := hrow.checkColumns hnamed
  have hgiven : givenKey? s.model (newColumns s now pk data) = some pk := by
    rw [hrow.givenKey?, Option.filter_some, Value.isNull_of_isPlain hplain]
    rfl
  cases hroot : st.contains (reg.rootOf s.model) pk with
  | true =>
      rw [insert_eq_error hcheck hfield hgiven hroot]
      rw [contains_iff_of_isPlain hplain] at hroot
      refine .inr ⟨⟨hroot, ?_⟩, rfl, rfl⟩
      cases hp : reg.parent? s.model with
      | none => exact absurd (hr.rootOf_of_no_parent hm hp ▸ hroot) hmissing
      | some parent => exact ⟨parent, rfl, hparent parent hp⟩
  | false =>
      have hnew := not_mem_of_contains hroot
      have hwhole : ¬Severed reg st s.model pk := fun hsevered => hnew hsevered.1
      cases hinsert : insert reg at' st s.model (newColumns s now pk data) with
      | ok r =>
          obtain ⟨_, _, hkey, _⟩ := insert_eq_ok hinsert
          obtain rfl : r.1 = pk := by rw [hkey, newKey, hgiven]
          exact ⟨hwhole, rfl, completed_of_insert hr hm hinsert⟩
      | error f =>
          rw [insert_eq hcheck hfield hgiven hroot] at hinsert
          exact .inl ⟨hwhole, _, .created hnow hnew, Outcome.error_of_bind_pure hinsert⟩

/-- Where neither the model's own table nor the parent's holds the key, the row is created, unless the inheritance is
severed. -/
theorem createRow_leads (hmissing : pk ∉ st.keys s.model)
    (hparent : ∀ parent, reg.parent? s.model = some parent → pk ∉ st.keys parent) :
    Job.Leads t.database reg times st (createRow t s (some pk) data []) (Settles reg times s data pk st) := by
  refine .bind <| .clock fun now hnow => .bind <| ?_
  have hsettles (at' : Instant) := insert_settles hr hs hcolumns hplain at' data hnow hmissing hparent
  refine .insert (fun at' _ key st' hinsert => .pure ?_) fun at' _ f hinsert => ?_
  · have hsettled := hsettles at'
    rwa [newColumns, hinsert] at hsettled
  · have hsettled := hsettles at'
    rwa [newColumns, hinsert] at hsettled

omit hr hcolumns in
/-- A new row below a parent's is given the key. -/
theorem givenKey?_localTo (now : Instant) {parent : Model} (data : Record) (hcolumn : KeyIsColumn reg s.model)
    (hparent : reg.parent? s.model = some parent) :
    givenKey? s.model ((newColumns s now pk data).localTo reg s.model) = some pk := by
  have hrow := namesRow_localTo (namesRow_createColumns hs now pk data)
  rw [if_pos (hcolumn.mem_localColumns hparent)] at hrow
  rw [newColumns, hrow.givenKey?, Option.filter_some, Value.isNull_of_isPlain hplain]
  rfl

omit hr in
/-- What comes of the insert of a new row below a parent's. -/
theorem insertChild_settles {now : Instant} {parent : Model} (at' : Instant) (data : Record) (hnow : times now)
    (hmissing : pk ∉ st.keys s.model)
    (hparent : reg.parent? s.model = some parent) (hstands : pk ∈ st.keys parent) :
    match insertChild reg at' st s.model ((newColumns s now pk data).localTo reg s.model) with
    | .ok st' => st' = putBelow reg s now at' pk data st
    | .error f => Offends reg times s data pk st f := by
  have hcolumn := hcolumns s.model (reg.self_mem_lineage s.model)
  have hrow := namesRow_localTo (namesRow_createColumns hs now pk data)
  rw [if_pos (hcolumn.mem_localColumns hparent)] at hrow
  have hgiven := givenKey?_localTo hs hplain now data hcolumn hparent
  have hnew : st.contains s.model pk = false :=
    Bool.eq_false_iff.mpr fun h => hmissing ((contains_iff_of_isPlain hplain).mp h)
  have hchild := insertChild_eq at' (hrow.checkColumns hcolumn.namesColumn) hgiven hparent
    (contains_of_mem hstands) hnew
  cases hinsert : insertChild reg at' st s.model ((newColumns s now pk data).localTo reg s.model) with
  | ok st' =>
      obtain ⟨_, _, h⟩ := Outcome.bind_eq_ok.mp (hchild.symm.trans hinsert)
      cases h
      rfl
  | error f =>
      have hcheck := Outcome.error_of_bind_pure (hchild.symm.trans hinsert)
      exact ⟨_, .below hnow hmissing hparent hstands, hcheck⟩

end Row

/-- A failure of a relation. -/
def OfRelation (f : Failure) : Prop := ∃ name g, f = .relation name g

/-- What a save deletes for relations cannot reach the tables of an inheritance. -/
def SparesLineage (app : Application) (s : Schema) (data : Record) : Prop :=
  ∀ m, Prunes app s data m → ∀ level ∈ app.registry.lineage s.model, Spares app.registry m level

/-- What the save of a row comes to. It settles the row, and the relations leave the key where it stands unless they
delete rows of the inheritance. -/
def Comes (app : Application) (times : Instant → Prop) (s : Schema) (o : SaveOptions) (data : Record) (pk : Value)
    (st : Store) (r : Outcome Value) (st' : Store) : Prop :=
  match r with
  | .ok k => ¬Severed app.registry st s.model pk ∧ k = pk ∧
      (o.withRelations = false → Completed app.registry s.model pk st st') ∧
      (SparesLineage app s data → ∀ level ∈ app.registry.lineage s.model, pk ∈ st'.keys level)
  | .error f => (¬Severed app.registry st s.model pk ∧
      (Offends app.registry times s data pk st f ∨ o.withRelations ∧ OfRelation f)) ∨
      Severed app.registry st s.model pk ∧
        f = .uniqueViolated (app.registry.rootOf s.model).name s.model.pkName ∧ st' = st

/-- What a save that fails comes to it also comes to if it is undone. -/
theorem Comes.undone {f : Failure} {st' : Store} (h : Comes app times s o data pk st (.error f) st') :
    Comes app times s o data pk st (.error f) st :=
  h.imp_right fun ⟨hsevered, hf, _⟩ => ⟨hsevered, hf, rfl⟩

section Application

variable (hr : app.registry.Rooted) (hs : s.Declared app.registry)
  (hcolumns : ∀ level ∈ app.registry.lineage s.model, KeyIsColumn app.registry level)
  (hkey : s.keyOf? data = some pk) (hplain : pk.isPlain)
  (hfloat : ∀ level ∈ app.registry.lineage s.model, ∀ k ∈ st.keys level, ∀ x, k ≠ .float x)
  (hi : Inherits app.registry st)
include hr hs hcolumns hplain hfloat hi

/-- Where the parent's table holds the key and the model's own does not, the row is put below the parent's. -/
theorem extendParent_leads {parent : Model} (hmissing : pk ∉ st.keys s.model)
    (hparent : app.registry.parent? s.model = some parent) (hstands : pk ∈ st.keys parent) :
    Job.Leads t.database app.registry times st (extendParent app t s pk data [])
      (Settles app.registry times s data pk st) := by
  have hm := hs.mem_models
  have hwhole := not_severed_of_parent hparent hstands
  refine .bind <| .clock fun now hnow => .bind <| .insertChild (fun at' _ st' hinsert => ?_) fun at' _ f hinsert => ?_
  · have hbelow := insertChild_settles hs hcolumns hplain at' data hnow hmissing hparent hstands
    rw [newColumns, hinsert] at hbelow
    have hcompleted : Completed app.registry s.model pk st st' :=
      hbelow ▸ completed_of_setRow hr hm hi hparent hstands _
    refine .ite (fun _ => ?_) fun _ => .pure ⟨hwhole, rfl, hcompleted⟩
    have hfloat' : ∀ k ∈ st'.keys s.model, ∀ x, k ≠ .float x := fun k hk x hx => by
      rcases (hcompleted s.model hm k).mp hk with hold | ⟨rfl, _⟩
      · exact hfloat s.model (app.registry.self_mem_lineage s.model) k hold x hx
      · rw [hx] at hplain
        cases hplain
    have hupdated := update_target (hcolumns s.model (app.registry.self_mem_lineage s.model)) hplain hfloat'
      (show Updatable app.registry s.model ((newColumns s now pk data).withoutKey s.model) from
        updatable_withoutKey (namesRow_createColumns hs now pk data))
    refine .bind <| .update rfl (fun n st'' hupdate => .pure ?_) fun f hupdate => ?_
    · have hupdate : update app.registry st' (target s pk) _ = .ok (n, st'') := hupdate
      simp only [newColumns, hupdate] at hupdated
      obtain ⟨pks, _, _, _, rfl⟩ := hupdated
      exact ⟨hwhole, rfl, hcompleted.congr (update_overwrites hr hm st' pks _).keys⟩
    · have hupdate : update app.registry st' (target s pk) _ = .error f := hupdate
      simp only [newColumns, hupdate] at hupdated
      obtain ⟨pks, hpks, _, hcheck⟩ := hupdated
      subst hbelow
      exact .inl ⟨hwhole, _, .extended hnow hpks hmissing hparent hstands, hcheck⟩
  · have hbelow := insertChild_settles hs hcolumns hplain at' data hnow hmissing hparent hstands
    rw [newColumns, hinsert] at hbelow
    exact .inl ⟨hwhole, hbelow⟩

omit hi in
/-- The table of the parent, if there is one, is asked for the key. -/
theorem parentHas_leads : Job.Leads t.database app.registry times st (parentHas app t s pk) fun r st' => st' = st ∧
    ∃ b, r = .ok b ∧ (b = true ↔ ∃ parent, app.registry.parent? s.model = some parent ∧ pk ∈ st.keys parent) := by
  unfold parentHas
  split
  · rename_i parent hparent
    have hl := hr.parent_mem_lineage hs.mem_models hparent
    obtain ⟨pks, hselect, _, hnone⟩ := select_plainKey (hcolumns parent hl) hplain (hfloat parent hl)
    refine .any rfl hselect ⟨rfl, _, rfl, ?_⟩
    rw [Bool.not_eq_true', List.isEmpty_eq_false_iff, Ne, hnone, not_not]
    refine ⟨fun hmem => ⟨parent, hparent, hmem⟩, fun ⟨parent', hparent', hmem⟩ => ?_⟩
    rwa [Option.some.inj (hparent.symm.trans hparent')]
  · rename_i hparent
    refine .pure ⟨rfl, _, rfl, ?_⟩
    simp [hparent]

include hkey

/-- What the writing of the row of a key comes to, if it may both create and update. -/
theorem writeRow_leads (hcreate : o.mustCreate = false) (hupdate : o.mustUpdate = false) :
    Job.Leads t.database app.registry times st (writeRow app t s o data [])
      (Settles app.registry times s data pk st) := by
  have hm := hs.mem_models
  have hself := app.registry.self_mem_lineage s.model
  simp only [writeRow, hkey, hcreate, hupdate, Bool.false_eq_true, if_false]
  refine .bind <| .clock fun now hnow => ?_
  -- Where no row is found the store is as it was, and one is put below the parent's or created.
  have hafter : ∀ {pks : List Value} {st' : Store}, (∀ k ∈ pks, k = pk) → (pks = [] ↔ pk ∉ st.keys s.model) →
      st' = overwrite app.registry s.model ((SaveParts.split s .update data).updateColumns s now []) pks st →
      Job.Leads t.database app.registry times st' (do
        if pks.length > 0 then return ⟨pk, false, SaveParts.split s .update data⟩
        if ← parentHas app t s pk then extendParent app t s pk data []
        else createRow t s (some pk) data []) (Settles app.registry times s data pk st) := by
    intro pks st' hpks hnone hst'
    refine .ite (fun hpos => .pure ?_) fun hzero => ?_
    · have hstands : pk ∈ st.keys s.model := by_contra fun hmissing => by
        rw [hnone.mpr hmissing] at hpos
        exact Nat.lt_irrefl 0 hpos
      have hall := fun level hl => hi s.model hm level hl hstands
      exact ⟨not_severed_of_stands hr hm hi hstands, rfl,
        completed_of_keys (fun m' hm' => hst' ▸ (update_overwrites hr hm st pks _).keys m' hm') hall⟩
    · obtain rfl : pks = [] := by simpa using hzero
      obtain rfl : st' = st := hst'
      have hmissing := hnone.mp rfl
      refine .bind <| (parentHas_leads hr hs hcolumns hplain hfloat).imp fun r after h => ?_
      obtain ⟨rfl, found, rfl, hfound⟩ := h
      refine .ite (fun hyes => ?_) fun hno => ?_
      · obtain ⟨parent, hparent, hstands⟩ := hfound.mp hyes
        exact extendParent_leads hr hs hcolumns hplain hfloat hi hmissing hparent hstands
      · exact createRow_leads hr hs hcolumns hplain hmissing fun parent hparent hstands =>
          hno (hfound.mpr ⟨parent, hparent, hstands⟩)
  refine .ite (fun hempty => ?_) fun _ => ?_
  · obtain ⟨pks, hselect, hpks, hnone⟩ := select_plainKey (hcolumns s.model hself) hplain (hfloat s.model hself)
    refine .bind <| .count hselect (hafter hpks hnone ?_)
    rw [List.isEmpty_iff.mp hempty, overwrite_nil]
  · have hupdated := update_target (hcolumns s.model hself) hplain (hfloat s.model hself)
      (updatable_updateColumns hs now data)
    refine .bind <| .update rfl (fun n st' hok => ?_) fun f herror => ?_
    · have hok : update app.registry st (target s pk) _ = .ok (n, st') := hok
      rw [hok] at hupdated
      obtain ⟨pks, hpks, hnone, rfl, hst'⟩ := hupdated
      exact hafter hpks hnone hst'
    · have herror : update app.registry st (target s pk) _ = .error f := herror
      rw [herror] at hupdated
      obtain ⟨pks, hpks, hstands, hcheck⟩ := hupdated
      exact .inl ⟨not_severed_of_stands hr hm hi hstands, _, .found hnow hpks hstands, hcheck⟩

/-! ## With relations -/

omit hr hs hcolumns hplain hfloat hi hkey in
theorem relations_fails {save : Schema → SaveOptions → Record → Record → Job Value} {row : WrittenRow} :
    Job.Fails OfRelation (relations app t save s o row) := by
  have hrelation : ∀ f write, Job.Fails OfRelation (relation t o f write) := fun f write =>
    .bind (.attempt _) fun r => by
      cases r with
      | ok _ => exact .pure _
      | error e => exact .ite (.pure _) (.throw ⟨_, _, rfl⟩)
  exact .bind (.forM fun e _ => hrelation _ _) fun _ => .forM fun e _ => hrelation _ _

omit hr hs hcolumns hplain hfloat hi hkey in
/-- Relations leave a key where it stands, if what is deleted for them cannot reach it. -/
theorem relations_keeps (hspares : SparesLineage app s data) {level : Model} (hl : level ∈ app.registry.lineage s.model)
    {levels : Nat} {row : WrittenRow} (hrow : FromData s data row.parts) :
    Job.Keeps (World.Preserves t.database app.registry fun st => pk ∈ st.keys level)
      (relations app t (rowWithin app t levels) s o row) := by
  have hA : Allowed (Call.KeepsKey app.registry level pk) app s data :=
    Call.allowed_keepsKey fun m hm => hspares m hm level hl
  exact (relations_made (fun _ _ _ hentry hfield => entryMade_of_allowed (rowWithin_made levels) hA hentry hfield)
    hrow).preserves

/-- What a save of a key comes to, if it may both create and update. -/
theorem row_leads (hcreate : o.mustCreate = false) (hupdate : o.mustUpdate = false) :
    Job.Leads t.database app.registry times st (row app t s o data) (Comes app times s o data pk st) := by
  refine .bind <| ((writeRow_leads hr hs hcolumns hkey hplain hfloat hi hcreate hupdate).and
    (.of_returns (returns_fromData o s data []))).imp fun r st₁ h => ?_
  cases r with
  | error f => exact h.1.imp_left (And.imp_right .inl)
  | ok row =>
      obtain ⟨⟨hwhole, hpk, hcompleted⟩, hparts⟩ := h
      have hstands : ∀ level ∈ app.registry.lineage s.model, pk ∈ st₁.keys level :=
        fun level hl => hcompleted.stands hr hs.mem_models hl
      refine .ite (fun hrelations => ?_) fun halone => ?_
      · have hkeeps : Job.Leads t.database app.registry times st₁
            (relations app t (rowWithin app t (Value.entriesDepth data)) s o row) fun _ st' =>
              SparesLineage app s data → ∀ level ∈ app.registry.lineage s.model, pk ∈ st'.keys level := by
          rintro w hreg _ _ rfl hspares level hl
          exact (relations_keeps hspares hl (hparts row rfl) w).store hreg (hstands level hl)
        refine .bind <| (hkeeps.and (.of_fails relations_fails)).imp fun r st' h => ?_
        cases r with
        | ok _ => exact .pure ⟨hwhole, hpk, fun halone => absurd (halone ▸ hrelations) Bool.false_ne_true, h.1⟩
        | error f => exact .inl ⟨hwhole, .inr ⟨hrelations, h.2 f rfl⟩⟩
      · exact .pure ⟨hwhole, hpk, fun _ => hcompleted, fun _ => hstands⟩

end Application

end Save

namespace Application

open Save

variable {app : Application} {t : WriteTarget} {reg : Registry} {times : Instant → Prop} {s : Schema}
  {o : SaveOptions} {ctx : Context} {data : Record} {st : Store} {pk : Value} {w : World}

/-- What a save comes to that may both create and update, under a plain key. The keys of the inheritance are columns,
none of them is a float, and each table holds what the tables below it hold. If the table of the model's parent holds
the key where the root's does, the save ends with the key in every table of the inheritance, and without relations in
no other, unless the row that it writes violates a constraint or a relation fails. Otherwise it fails, because the
root's table holds the key, and changes nothing. -/
theorem save_completes_inheritance {decls : List ModelDecl} (cat : Catalog)
    (hreg : Registry.build decls = .ok w.registry) (hs : s.Declared w.registry)
    (hcolumns : ∀ level ∈ w.registry.lineage s.model, KeyIsColumn w.registry level)
    (hkey : s.keyOf? data = some pk) (hplain : pk.isPlain) (hcreate : o.mustCreate = false)
    (hupdate : o.mustUpdate = false) (ht : WriteTarget.of w.connections ctx o = .ok t)
    (hfloat : ∀ level ∈ w.registry.lineage s.model, ∀ k ∈ (w.database t.database).store.keys level,
      ∀ x, k ≠ .float x)
    (hi : Inherits w.registry (w.database t.database).store) :
    let app := w.application cat
    let st := (w.database t.database).store
    let run := w.runJob (app.save s data ctx o)
    let st' := (run.2.database t.database).store
    (¬Severed w.registry st s.model pk →
      (run.1 = .ok pk ∧ (o.withRelations = false → Completed w.registry s.model pk st st') ∧
        (SparesLineage app s data → ∀ level ∈ w.registry.lineage s.model, pk ∈ st'.keys level)) ∨
      ∃ f, run.1 = .error (ctx.mapFailure f) ∧
        (Offends w.registry w.Shows s data pk st f ∨ o.withRelations ∧ OfRelation f)) ∧
    (Severed w.registry st s.model pk →
      run.1 = .error (ctx.mapFailure (.uniqueViolated (w.registry.rootOf s.model).name s.model.pkName)) ∧
        st' = st) := by
  intro app st run st'
  have hcheck : o.check = .ok () := by rw [SaveOptions.check, hcreate, hupdate]; rfl
  have hrow : Job.Leads t.database app.registry w.Shows st (row app t s o data) (Comes app w.Shows s o data pk st) :=
    row_leads (Registry.rooted_of_build hreg) hs hcolumns hkey hplain hfloat hi hcreate hupdate
  have hsave : Job.Leads t.database w.registry w.Shows st (app.save s data ctx o) fun r st' =>
      ∃ r', Comes app w.Shows s o data pk st r' st' ∧ r = r'.mapError ctx.mapFailure := by
    refine save_leads hcheck ht (hrow.imp fun r after h => ⟨⟨r, h, rfl⟩, fun f hf => ?_⟩)
    subst hf
    exact ⟨.error f, h.undone, rfl⟩
  obtain ⟨r, hcomes, hr⟩ := hsave w rfl (mem_names_of_target ht) (fun _ h => h) rfl
  have hr : run.1 = r.mapError ctx.mapFailure := hr
  rw [hr]
  cases r with
  | ok k =>
      obtain ⟨hwhole, rfl, hdone⟩ := hcomes
      exact ⟨fun _ => .inl ⟨rfl, hdone⟩, fun hsevered => absurd hsevered hwhole⟩
  | error f =>
      rcases hcomes with ⟨hwhole, hfailed⟩ | ⟨hsevered, rfl, hst⟩
      · exact ⟨fun _ => .inr ⟨f, rfl, hfailed⟩, fun hsevered => absurd hsevered hwhole⟩
      · exact ⟨fun hwhole => absurd hsevered hwhole, fun _ => ⟨rfl, hst⟩⟩

end Application

/-! ## Towers on places -/

namespace Towers

open Registry (built modelOf tableOf)

/-- A tower is a building, and a building is a place. -/
def decls : List ModelDecl :=
  [{ name := "place", fields := [.autoKey "id"] },
    { name := "building", parent := some "place", fields := [{ Field.of "floors" .integer with null := true }] },
    { name := "tower", parent := some "building", fields := [{ Field.of "bells" .integer with null := true }] }]

def place : Model := modelOf (built decls) "place"

def building : Model := modelOf (built decls) "building"

def tower : Model := modelOf (built decls) "tower"

/-- A place is added, and perhaps a building on it. -/
def calls (built? : Bool) : List (Instant × Call) :=
  (default, .insert place []) ::
    if built? then [(default, .insertChild building [("id", .int 1), ("floors", .int 3)])] else []

def world (built? : Bool) : World where
  registry := built decls
  databases := [("default", { Database.empty.play (built decls) (calls built?) with log := [] })]
  main := "default"
  clock := default
  tick := 0

/-- The store before a save. -/
def stored (built? : Bool) : Store := ((world built?).database "default").store

def towerFields : List FieldDecl := [{ name := "id" }, { name := "bells" }]

def towerSchema : Schema :=
  match Schema.build (built decls) {} "Tower" tower towerFields with
  | .ok s => s
  | .error _ => default

/-- A tower on the place. -/
def data : Record := [("id", .int 1), ("bells", .int 5)]

def alone : SaveOptions := { withRelations := false }

def saved (built? : Bool) : Outcome Value × World :=
  (world built?).runJob (((world built?).application {}).save towerSchema data {} alone)

theorem built_towers : Registry.build decls = .ok (built decls) := rfl

theorem declared_tower : towerSchema.Declared (built decls) := by
  have hbuild : Schema.build (built decls) {} "Tower" tower towerFields = .ok towerSchema := rfl
  exact .built (by decide +kernel) hbuild

/-- On a place with a building a tower is saved, which then stands in all three tables. -/
theorem tower_on_building :
    (towerSchema.keyOf? data = some (.int 1) ∧ (stored true).keys building = [.int 1] ∧ (stored true).keys tower = [] ∧
      ¬Severed (built decls) (stored true) tower (.int 1)) ∧
    ((saved true).1 = .ok (.int 1) ∧
      Completed (built decls) tower (.int 1) (stored true) ((saved true).2.database "default").store) := by
  have hkey : towerSchema.keyOf? data = some (.int 1) := rfl
  have hlineage : (built decls).lineage tower = [tower, building, place] := rfl
  have hlevels : ∀ level ∈ (built decls).lineage tower, level = tower ∨ level = building ∨ level = place := by
    simp [hlineage]
  have hcolumns : ∀ level ∈ (built decls).lineage tower, KeyIsColumn (built decls) level := by
    intro level hl
    rcases hlevels level hl with rfl | rfl | rfl <;> exact ⟨_, rfl, rfl, rfl, rfl⟩
  have hkeys : ∀ level ∈ (built decls).lineage tower, ∀ k ∈ (stored true).keys level, k = .int 1 := by decide +kernel
  have hi : Inherits (built decls) (stored true) := by
    unfold Inherits
    decide +kernel
  have hwhole : ¬Severed (built decls) (stored true) tower (.int 1) :=
    not_severed_of_parent (show (built decls).parent? tower = some building from rfl)
      (show .int 1 ∈ (stored true).keys building by decide +kernel)
  refine ⟨⟨hkey, rfl, rfl, hwhole⟩, ?_⟩
  have hcomes := Application.save_completes_inheritance (w := world true) {} built_towers declared_tower hcolumns hkey rfl
    rfl rfl (show WriteTarget.of (world true).connections {} alone = .ok _ from rfl)
    (fun level hl k hk x hx => nomatch (hkeys level hl k hk).symm.trans hx) hi
  rcases hcomes.1 hwhole with ⟨hok, hcompleted, _⟩ | ⟨f, hf, _⟩
  · exact ⟨hok, hcompleted rfl⟩
  · exact nomatch hf.symm.trans (show (saved true).1 = .ok (.int 1) from rfl)

/-- On a place without a building it is not: the root's table holds the key, and the save takes it for a new one. -/
theorem tower_on_place_refused :
    (towerSchema.keyOf? data = some (.int 1) ∧ (stored false).keys place = [.int 1] ∧
      (stored false).keys building = [] ∧ (stored false).keys tower = []) ∧
      (saved false).1 = .error (.uniqueViolated "place" "id") :=
  ⟨⟨rfl, rfl, rfl, rfl⟩, rfl⟩

end Towers

end RecordMapper
