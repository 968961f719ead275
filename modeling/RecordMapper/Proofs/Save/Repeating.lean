import RecordMapper.Proofs.Save.ReadBack
import RecordMapper.Proofs.Save.Settling

/-!
# Repeating — saves that are tried once more

A save of a record with a key that has succeeded leaves a row that can be
written once more and a relation that is settled, whether it has created
its row or updated it (`row_ends_repeats`). The same save then finds its row
and has nothing to change (`row_rests`), and one that must create is
refused.
-/

namespace RecordMapper

open Store

/-- A schema of a model without a parent that nests no schemas. Its columns are not stamped, no two fields write one of
them, and one field at most is written as a relation. -/
structure Schema.Simple (s : Schema) : Prop where
  top : s.model.parent = none
  flat : ∀ f ∈ s.fieldList, f.nested = none
  still : ∀ f ∈ s.fieldList, f.column.isSome → f.stampsChanges = false
  apart : ∀ op, s.WritesApart op
  alone : ∀ f ∈ s.fieldList, ∀ g ∈ s.fieldList, f.relationWrite.isSome → g.relationWrite.isSome → f.name = g.name

/-- A simple schema through which saves can be repeated. -/
structure Schema.Repeatable (reg : Registry) (s : Schema) : Prop extends s.Simple where
  relations : ∀ f ∈ s.fieldList, ∀ w, f.relationWrite = some w → w.Repeatable reg s

variable {decls : List ModelDecl} {reg : Registry} {times : Instant → Prop} {s : Schema} {op : Operation}
  {data : Record} {st st' st₁ : Store} {pk : Value} {app : Application} {t : WriteTarget} {o : SaveOptions}
  {f : SchemaField} {v : Value}

/-! ## Parts of the data -/

theorem SchemaField.isNull_of_mem_relationKeys (f : SchemaField) {k : Value} (h : k ∈ f.relationKeys v) :
    k.isNull = false := by
  have hkept := List.mem_filter.mp (mem_distinctOf.mp h)
  simpa using hkept.2

namespace SaveParts

/-- Where no column is stamped, what changes in a row is what is given. -/
theorem updateColumns_of_still (h : ∀ f ∈ s.fieldList, f.column.isSome → f.stampsChanges = false) (now : Instant)
    (parts : SaveParts) : parts.updateColumns s now [] = parts.columns := by
  refine List.foldlRecOn (motive := (· = parts.columns)) s.fieldList _ rfl fun out hout f hf => ?_
  subst hout
  split
  · rename_i column m hcolumn hm
    have hstill := h f hf (by rw [hcolumn]; rfl)
    rw [SchemaField.stampsChanges, hm, Option.any_some] at hstill
    rw [hstill]
    rfl
  · rfl

/-- A relation that is given by keys is one of a field that takes part in the operation. -/
theorem allows_of_mem_keys (h : (f, v) ∈ (split s op data).keys) : f.mode.allows op := by
  refine List.foldlRecOn (motive := fun (parts : SaveParts) => (f, v) ∈ parts.keys → f.mode.allows op) data _
    (fun he => absurd he List.not_mem_nil) (fun parts ih entry _ he => ?_) h
  rcases addEntry_cases s op parts entry with hadd | ⟨g, _, _, hallows, hcases⟩
  · exact ih (hadd ▸ he)
  · rcases hcases with ⟨_, _, _, hadd⟩ | ⟨_, hadd⟩ | ⟨_, _, _, hadd⟩
    · rw [hadd] at he
      exact ih he
    · rw [hadd] at he
      rcases List.mem_append.mp he with hold | hnew
      · exact ih hold
      · obtain ⟨rfl, _⟩ := Prod.mk.inj (List.mem_singleton.mp hnew)
        exact hallows
    · rw [hadd] at he
      exact ih he

/-- An entry for a relation without a nested schema gives its keys. -/
theorem mem_keys_split {name : String} (he : (name, v) ∈ data) (hf : s.field? name = some f)
    (hkey : f.isPrimaryKey = false) (hallows : f.mode.allows op) (hwrite : f.relationWrite.isSome)
    (hflat : f.nested = none) : (f, v) ∈ (split s op data).keys := by
  obtain ⟨before, after, rfl⟩ := List.append_of_mem he
  have hone : (split s op [(name, v)]).keys = [(f, v)] := by
    simp [split, addEntry, hf, hkey, hallows, hwrite, hflat]
  rw [Save.keys_split_append, ← List.singleton_append, Save.keys_split_append, hone]
  exact List.mem_append_right _ List.mem_cons_self

end SaveParts

namespace Save

section Parts

variable (hread : reg.Readable) (hb : Registry.build decls = .ok reg) (hs : s.Declared reg) (hrep : s.Repeatable reg)
  (hnames : (data.map Prod.fst).Nodup)

include hrep in
theorem objects_split (op : Operation) : (SaveParts.split s op data).objects = [] := by
  refine List.eq_nil_iff_forall_not_mem.mpr fun e he => ?_
  obtain ⟨hnested, _, _, _, hf⟩ := (fromData_split s op data).objects e.1 e.2 he
  rw [hrep.flat e.1 (Schema.mem_fieldList_of_field? hf)] at hnested
  cases hnested

include hb hs hrep in
/-- The columns that are given are columns of the model itself. -/
theorem exists_storedColumn {e : String × Value} (he : e ∈ (SaveParts.split s op data).columns) :
    ∃ c, StoredColumn reg s.model e.1 c := by
  obtain ⟨_, _, f, hf, hkey, _, hcolumn, _⟩ := SaveParts.mem_columns_split he
  obtain ⟨c, _, hstored⟩ := hs.storedColumn hb hrep.top (Schema.mem_fieldList_of_field? hf) hkey hcolumn
  exact ⟨c, hstored⟩

include hs in
/-- What an update takes, a creation takes too. -/
theorem mem_keys_create (hrep : s.Repeatable reg) (h : (f, v) ∈ (SaveParts.split s .update data).keys) :
    (f, v) ∈ (SaveParts.split s .create data).keys := by
  obtain ⟨name, hentry, hf⟩ := (fromData_split s .update data).keys f v h
  obtain ⟨hkey, hwrite⟩ := (fromData_split s .update data).relations f v (.inl h)
  have hmem := Schema.mem_fieldList_of_field? hf
  exact SaveParts.mem_keys_split hentry hf hkey ((hs.written hmem).lenient (SaveParts.allows_of_mem_keys h)) hwrite
    (hrep.flat f hmem)

include hread hb hs hrep hnames

/-- One relation at most is given. -/
theorem keys_split_alone (op : Operation) :
    (SaveParts.split s op data).keys = [] ∨ ∃ e, (SaveParts.split s op data).keys = [e] := by
  have hkeys := Registry.keysFound_of_build hb fun m hm => hread.undotted_key hb hm
  have hnodup := nodup_names_split (fun e _ f hf => Schema.name_of_field? hkeys hs hf) hnames op
  rw [objects_split hrep, List.append_nil] at hnodup
  have hfrom := fromData_split s op data
  have hwritten : ∀ e ∈ (SaveParts.split s op data).keys, e.1 ∈ s.fieldList ∧ e.1.relationWrite.isSome := fun e he => by
    obtain ⟨_, _, hf⟩ := hfrom.keys e.1 e.2 he
    exact ⟨Schema.mem_fieldList_of_field? hf, (hfrom.relations e.1 e.2 (.inl he)).2⟩
  generalize (SaveParts.split s op data).keys = keys at hnodup hwritten
  match keys with
  | [] => exact .inl rfl
  | [e] => exact .inr ⟨e, rfl⟩
  | e :: e' :: rest =>
      obtain ⟨hmem, hwrite⟩ := hwritten e List.mem_cons_self
      obtain ⟨hmem', hwrite'⟩ := hwritten e' (List.mem_cons_of_mem _ List.mem_cons_self)
      refine absurd ?_ (List.nodup_cons.mp hnodup).1
      exact List.mem_map.mpr ⟨e', List.mem_cons_self, (hrep.alone e.1 hmem e'.1 hmem' hwrite hwrite').symm⟩

/-- The columns that an update gives are given to a new row too. -/
theorem get?_createColumns {e : String × Value} (he : e ∈ (SaveParts.split s .update data).columns) (now : Instant)
    (key : Option Value) : ((SaveParts.split s .create data).createColumns s now key []).get? e.1 = some e.2 := by
  obtain ⟨entry, hentry, f, hf, hkey, hallows, hcolumn, hv, hwrite⟩ := SaveParts.mem_columns_split he
  have hmem := Schema.mem_fieldList_of_field? hf
  obtain ⟨_, hstored⟩ := exists_storedColumn hb hs hrep he
  have hgiven := lookup_given hb (fun m hm => hread.undotted_key hb hm) hs (hrep.apart .create) hnames hentry hf hkey
    ((hs.written hmem).lenient hallows) hwrite hcolumn
  exact hv ▸ SaveParts.lookup_createColumns_of_columns hstored.ne_key.2 hgiven now key

end Parts

/-! ## Once more -/

/-- What a save leaves that is found done once more: its row can be written again, and its relation is settled. -/
structure Done (reg : Registry) (s : Schema) (data : Record) (pk : Value) (withRelations : Bool) (st : Store) : Prop where
  row : Rewritable reg s.model pk (SaveParts.split s .update data).columns st
  relations : withRelations → ∀ f v, (f, v) ∈ (SaveParts.split s .update data).keys → ∀ w, f.relationWrite = some w →
    w.Settled reg st pk (f.relationKeys v)

section Select

variable {m : Model} (hread : reg.Readable) (hb : Registry.build decls = .ok reg) (hm : m ∈ reg.models)
  (hplain : PlainKeys reg st) (hpk : pk.isPlain)
include hread hb hm hplain hpk

/-- A plain key selects its own row alone. -/
theorem eq_of_mem_select {pks : List Value} (h : select reg st ((Queryset.all m).pkIn [pk]) = .ok pks) :
    ∀ k ∈ pks, k = pk ∧ pk ∈ st.keys m := by
  refine eq_of_mem_select_pkIn (fun k => ?_) (fun k hk x hx => ?_) hpk h
  · have hkey := hread.reads_key hb hm st k
    rwa [cell_pkName] at hkey
  · have hfloat := hplain m hm k hk
    rw [hx] at hfloat
    cases hfloat

theorem exists_select (hstands : pk ∈ st.keys m) :
    ∃ pks, select reg st ((Queryset.all m).pkIn [pk]) = .ok pks ∧ 0 < pks.length ∧ ∀ k ∈ pks, k = pk := by
  have hselect := select_listed hread hb hm st [pk]
  refine ⟨_, hselect, ?_, fun k hk => (eq_of_mem_select hread hb hm hplain hpk hselect k hk).1⟩
  exact List.length_pos_of_mem (List.mem_filter.mpr
    ⟨hstands, holds_oneOf_of_isPlain (List.mem_singleton.mpr rfl) hpk⟩)

end Select

section Rests

variable (hread : reg.Readable) (hb : Registry.build decls = .ok reg) (hs : s.Declared reg) (hrep : s.Repeatable reg)
  (hkey : s.keyOf? data = some pk) (hpk : pk.isPlain) (hplain : PlainKeys reg st)
include hread hb hs hrep hkey hpk hplain

/-- A row that can be written once more is found and written without a change. -/
theorem writeRow_rests (hcreate : o.mustCreate = false)
    (h : Rewritable reg s.model pk (SaveParts.split s .update data).columns st) :
    Job.Rests t.database reg st (writeRow app t s o data []) (· = .ok ⟨pk, false, SaveParts.split s .update data⟩) := by
  obtain ⟨pks, hselect, hsome, hpks⟩ := exists_select hread hb hs.mem_models hplain hpk h.key
  have hfound : ∀ n, 0 < n → Job.Rests t.database reg st (do
      if n > 0 then return ⟨pk, false, SaveParts.split s .update data⟩
      if ← parentHas app t s pk then extendParent app t s pk data []
      else if o.mustUpdate then throw (.noRowToUpdate s.name pk)
      else createRow t s (some pk) data []) (· = .ok ⟨pk, false, SaveParts.split s .update data⟩) := fun n hn => by
    rw [if_pos hn]
    exact .pure rfl
  unfold writeRow
  simp only [hkey, hcreate, Bool.false_eq_true, if_false]
  refine .bind <| .clock fun now => ⟨now, rfl, ?_⟩
  simp only [SaveParts.updateColumns_of_still hrep.still]
  split
  · exact .bind <| .count hselect ⟨_, rfl, hfound _ hsome⟩
  · rename_i hcolumns
    have hne : (SaveParts.split s .update data).columns ≠ [] := by simpa using hcolumns
    have hvalues : Updatable reg s.model (SaveParts.split s .update data).columns := by
      have hupdatable := updatable_updateColumns hs default data
      rwa [SaveParts.updateColumns_of_still hrep.still] at hupdatable
    refine .bind <| .update rfl (h.update_eq hvalues hne (fun e he => ?_) rfl hselect hpks) ⟨_, rfl, hfound _ hsome⟩
    obtain ⟨c, hstored⟩ := exists_storedColumn hb hs hrep he
    exact hstored.owner? (Registry.rooted_of_build hb) hs.mem_models

/-- A save that is found done changes nothing. -/
theorem row_rests (hcreate : o.mustCreate = false) (hforgive : o.forgiveRelations = .none)
    (h : Done reg s data pk o.withRelations st) : Job.Rests t.database reg st (row app t s o data) (· = .ok pk) := by
  refine .bind <| (writeRow_rests hread hb hs hrep hkey hpk hplain hcreate h.row).imp fun _ hr => ⟨_, hr, ?_⟩
  have hrelations : o.withRelations → Job.Rests t.database reg st
      (relations app t (rowWithin app t (Value.entriesDepth data)) s o ⟨pk, false, SaveParts.split s .update data⟩)
      (· = .ok ⟨⟩) := fun hwith => by
    refine .bind <| (Job.Rests.forM fun e he => ?_).imp fun _ hr => ⟨_, hr, ?_⟩
    · obtain ⟨_, _, hf⟩ := (fromData_split s .update data).keys e.1 e.2 he
      have hmem := Schema.mem_fieldList_of_field? hf
      simp only [relation, hforgive, Forgiveness.skipsAny, Bool.and_false]
      refine .bind <| .attempt <| .imp (P := (· = .ok ⟨⟩)) ?_ fun r hr => ⟨r, rfl, ?_⟩
      · split
        · rename_i w hw
          exact RelationWrite.assign_rests hread hb (hs.kept hread hb hmem hw hrep.top) (hrep.relations e.1 hmem w hw)
            (h.relations hwith e.1 e.2 he w hw)
        · exact .pure rfl
      · subst hr
        exact .pure rfl
    · rw [objects_split hrep]
      exact .pure rfl
  split
  · rename_i hwith
    exact .bind <| (hrelations hwith).imp fun _ hr => ⟨_, hr, .pure rfl⟩
  · exact .pure rfl

omit hplain in
/-- Where the key stands, a save that must create is refused. -/
theorem row_refused (hcreate : o.mustCreate = true) (hstands : pk ∈ st.keys s.model) :
    Job.Rests t.database reg st (row app t s o data)
      (· = .error (.uniqueViolated s.model.name s.model.pkName)) := by
  refine .bind_error ?_
  unfold writeRow
  simp only [hkey, hcreate, if_true]
  refine .bind <| .clock fun now => ⟨now, rfl, .bind_error <| .insert_refused (fun at' => ?_) ⟨_, rfl, _, rfl, rfl⟩⟩
  have hm := hs.mem_models
  obtain ⟨pkField, hfield⟩ := Option.isSome_iff_exists.mp (Registry.exists_keyField_of_build hb hm)
  have hconcrete := hread.keys _ hm
  rw [hfield, Option.all_some] at hconcrete
  have hrow := namesRow_createColumns hs now pk data
  have hroot := reg.rootOf_of_top hrep.top
  refine (insert_eq_error (hrow.checkColumns ⟨pkField, hfield, hconcrete⟩) (Registry.field_eq_ok.mpr hfield)
    (SaveParts.givenKey?_createColumns (Value.isNull_of_isPlain hpk) (by simp) now _)
    (hroot.symm ▸ contains_of_mem hstands)).trans ?_
  rw [hroot]

end Rests

/-! ## The first time -/

section Ends

variable (hread : reg.Readable) (hb : Registry.build decls = .ok reg) (hs : s.Declared reg) (hrep : s.Repeatable reg)
  (hnames : (data.map Prod.fst).Nodup) (hkey : s.keyOf? data = some pk) (hpk : pk.isPlain) (hst : Intact reg st)
  (hi : Inherits reg st)
include hread hb hs hrep hnames hkey hpk hst hi

/-- A row that was written can be written once more with what an update gives. -/
theorem Wrote.rowWritten {row : WrittenRow} (h : Wrote reg times s data [] st row st₁) :
    row.pk = pk ∧ row.parts = SaveParts.split s (if row.created then .create else .update) data ∧
      RowWritten reg s (SaveParts.split s .update data).columns pk row.created st st₁ := by
  have hr := Registry.rooted_of_build hb
  have hm := hs.mem_models
  cases h with
  | @found k now pks _ key time selected some overwritten checked =>
      obtain rfl : k = pk := Option.some.inj (key.symm.trans hkey)
      have hown := eq_of_mem_select hread hb hm hst.plain hpk selected
      obtain ⟨k', hk'⟩ := List.exists_mem_of_ne_nil _ some
      obtain ⟨rfl, hstands⟩ := hown k' hk'
      rw [SaveParts.updateColumns_of_still hrep.still] at overwritten checked
      refine ⟨rfl, rfl, ?_, ?_, nofun⟩
      · exact overwritten ▸ (hst.orderly hi).overwrite hr hm pks _
      · refine .of_overwrite hr hm hstands hk' (fun e he => ?_) (SaveParts.nodup_names_split .update data) overwritten
          fun hne => checked hne _ hk'
        obtain ⟨c, hc⟩ := exists_storedColumn hb hs hrep he
        exact hc.owner? hr hm
  | extended key time missing given inserted updated =>
      obtain ⟨_, _, _, hparent, _⟩ := insertChild_eq_ok inserted
      rw [Registry.parent?_eq_none_of_parent hrep.top] at hparent
      cases hparent
  | @created k now at' _ time inserted =>
      rw [hkey] at inserted
      obtain ⟨_, _, hnew, _⟩ := insert_eq_ok inserted
      rw [newKey, SaveParts.givenKey?_createColumns (Value.isNull_of_isPlain hpk) (by simp)] at hnew
      obtain rfl : k = pk := hnew
      refine ⟨rfl, rfl, (hst.orderly hi).insert hr hm hpk inserted, ?_, fun _ => ⟨at', _, inserted, fun e he hne => ?_⟩⟩
      · refine .of_insert hr hm (fun e he => get?_createColumns hread hb hs hrep hnames he now _) (fun e he => ?_) inserted
        obtain ⟨c, hc⟩ := exists_storedColumn hb hs hrep he
        exact ⟨c, hc.own, hc.name, hc.concrete, hc.beside⟩
      · rcases @SaveParts.mem_createColumns s now (· = now) _ _ _ _ rfl he with hgiven | hpkName | hmore | ⟨f, hf, hcolumn, _⟩
        · obtain ⟨_, _, f, hf, hcolumn⟩ := (fromData_split s .create data).columns e hgiven
          exact ⟨f, Schema.mem_fieldList_of_field? hf, hcolumn⟩
        · exact absurd hpkName hne
        · cases hmore
        · exact ⟨f, hf, hcolumn⟩

omit hread hb hs hrep hnames hkey hpk hst hi in
/-- A relation that no failure is passed over for has been written. -/
theorem relation_ends {write : Job Unit} {Q : Store → Prop} (hforgive : o.forgiveRelations = .none)
    (h : Job.Ends t.database reg times st write fun _ st' => Q st') :
    Job.Ends t.database reg times st (relation t o f write) fun _ st' => Q st' := by
  simp only [relation, hforgive, Forgiveness.skipsAny, Bool.and_false]
  exact .bind <| .attempt (h.imp fun _ _ hQ => .pure hQ) fun _ _ => .throw _

omit hkey in
/-- Once its relations are written too, what a save has done is found done once more. -/
theorem relations_ends {levels : Nat} {row : WrittenRow} (hforgive : o.forgiveRelations = .none) (hrowpk : row.pk = pk)
    (hparts : row.parts = SaveParts.split s (if row.created then .create else .update) data)
    (hrow : RowWritten reg s (SaveParts.split s .update data).columns pk row.created st st₁) :
    Job.Ends t.database reg times st₁ (relations app t (rowWithin app t levels) s o row) fun _ st' =>
      PlainKeys reg st' → pk ∈ st'.keys s.model → Done reg s data pk true st' := by
  subst hrowpk
  have hsub : ∀ f v, (f, v) ∈ (SaveParts.split s .update data).keys → (f, v) ∈ row.parts.keys := fun f v h => by
    rw [hparts]
    split
    · exact mem_keys_create hs hrep h
    · exact h
  have hcolumns : ∀ e ∈ (SaveParts.split s .update data).columns, ∃ g ∈ s.fieldList, g.column = some e.1 := fun e he => by
    obtain ⟨_, _, g, hg, hcolumn⟩ := (fromData_split s .update data).columns e he
    exact ⟨g, Schema.mem_fieldList_of_field? hg, hcolumn⟩
  have hfrom : FromData s data row.parts := hparts ▸ fromData_split s _ data
  have hobjects : row.parts.objects = [] := hparts ▸ objects_split hrep _
  have halone : row.parts.keys = [] ∨ ∃ e, row.parts.keys = [e] :=
    hparts ▸ keys_split_alone hread hb hs hrep hnames _
  unfold relations
  rw [hobjects]
  rcases halone with hnone | ⟨⟨f, v⟩, hone⟩
  · rw [hnone] at hsub ⊢
    exact .bind <| .pure <| .pure fun _ _ => ⟨hrow.row, fun _ f v h => absurd (hsub f v h) List.not_mem_nil⟩
  · have hmem : (f, v) ∈ row.parts.keys := hone ▸ List.mem_cons_self
    obtain ⟨_, _, hf⟩ := hfrom.keys f v hmem
    have hfield := Schema.mem_fieldList_of_field? hf
    obtain ⟨w, hw⟩ := Option.isSome_iff_exists.mp (hfrom.relations f v (.inl hmem)).2
    have hassign : Job.Ends t.database reg times st₁ (w.assign t.database row.pk (f.relationKeys v) row.created) fun _ st' =>
        RelationWritten reg s (SaveParts.split s .update data).columns row.pk (f.relationKeys v) w st' :=
      assign_ends hread hb hs.mem_models hrep.top (hs.kept hread hb hfield hw hrep.top) (hrep.relations f hfield w hw) hst hi
        hpk (fun k hk => f.isNull_of_mem_relationKeys hk) hcolumns hrow
    rw [hone] at hsub ⊢
    refine .bind <| .bind <| (relation_ends hforgive ?_).imp fun _ st' h => .pure <| .pure h
    simp only [hw]
    refine hassign.imp fun _ st' h hplain hstands => ⟨h.row hstands, fun _ g u hg w' hw' => ?_⟩
    obtain ⟨rfl, rfl⟩ := Prod.mk.inj (List.mem_singleton.mp (hsub g u hg))
    obtain rfl : w = w' := Option.some.inj (hw.symm.trans hw')
    exact h.settled hplain

/-- A save that has succeeded is found done once more, if its row still stands and no key is a float or the like. -/
theorem row_ends_done (hforgive : o.forgiveRelations = .none) (happ : app.registry = reg) :
    Job.Ends t.database reg times st (row app t s o data) fun key st' =>
      key = pk ∧ (PlainKeys reg st' → pk ∈ st'.keys s.model → Done reg s data pk o.withRelations st') := by
  subst happ
  refine .bind (writeRow_ends.imp fun row st₁ hwrote => ?_)
  obtain ⟨hrowpk, hparts, hrow⟩ := hwrote.rowWritten hread hb hs hrep hnames hkey hpk hst hi
  refine .ite (fun hwith => .bind ?_) fun hwithout => .pure ⟨hrowpk, fun _ _ =>
    ⟨hrow.row, fun hwith => absurd hwith hwithout⟩⟩
  refine (relations_ends hread hb hs hrep hnames hpk hst hi hforgive hrowpk hparts hrow).imp fun _ st' h => .pure ?_
  exact ⟨hrowpk, fun hplain hstands => ⟨(h hplain hstands).row, fun _ => (h hplain hstands).relations rfl⟩⟩

end Ends

end Save

namespace Application

open Save

/-- A job that saving a row comes to without a change is one that a save comes to. -/
theorem save_rests {ctx : Context} {P : Outcome Value → Prop} (hcheck : o.check = .ok ())
    (ht : WriteTarget.of app.connections ctx o = .ok t) (h : Job.Rests t.database reg st (Save.row app t s o data) P) :
    Job.Rests t.database reg st (app.save s data ctx o) fun r => ∃ r', P r' ∧ r = r'.mapError ctx.mapFailure := by
  refine save_leads hcheck ht (Job.Leads.imp h fun r st' hr => ?_)
  obtain ⟨hP, rfl⟩ := hr
  refine ⟨⟨⟨r, hP, rfl⟩, rfl⟩, fun f hf => ?_⟩
  subst hf
  exact ⟨⟨_, hP, rfl⟩, rfl⟩

/-- A save that has succeeded changes nothing when it is tried once more, and is refused when it must create. The
record has a plain key, and is saved through a schema whose saves can be repeated; no failure of a relation is passed
over; all references of the store lead to rows, and no key is a float or the like, before the save and after it. The
row that was saved still stands: what is deleted for its links may take it along. -/
theorem save_repeats {w : World} (cat : Catalog) {ctx : Context} {key : Value}
    (hb : Registry.build decls = .ok w.registry) (hread : w.registry.Readable) (hs : s.Declared w.registry)
    (hrep : s.Repeatable w.registry) (hnames : (data.map Prod.fst).Nodup) (hkey : s.keyOf? data = some pk)
    (hpk : pk.isPlain) (hcreate : o.mustCreate = false) (hupdate : o.mustUpdate = false)
    (hforgive : o.forgiveRelations = .none) (ht : WriteTarget.of w.connections ctx o = .ok t)
    (hst : Intact w.registry (w.database t.database).store) (hi : Inherits w.registry (w.database t.database).store)
    (hsave : (w.runJob ((w.application cat).save s data ctx o)).1 = .ok key) :
    let w₁ := (w.runJob ((w.application cat).save s data ctx o)).2
    let again := w₁.runJob ((w.application cat).save s data ctx o)
    let anew := w₁.runJob ((w.application cat).save s data ctx { o with mustCreate := true })
    PlainKeys w.registry (w₁.database t.database).store → key ∈ (w₁.database t.database).store.keys s.model →
    (again.1 = .ok key ∧ ∀ name, (again.2.database name).store = (w₁.database name).store) ∧
      anew.1 = .error (ctx.mapFailure (.uniqueViolated s.model.name s.model.pkName)) ∧
        ∀ name, (anew.2.database name).store = (w₁.database name).store := by
  intro w₁ again anew hplain hstands
  have hregistry : w₁.registry = w.registry := World.registry_run _ w
  have hnames' : w₁.databases.map Prod.fst = w.databases.map Prod.fst := World.names_run _ w
  have hknown : t.database ∈ w₁.databases.map Prod.fst := hnames' ▸ mem_names_of_target ht
  have hdone : Job.Ends t.database w.registry w.Shows (w.database t.database).store (row (w.application cat) t s o data) _ :=
    row_ends_done hread hb hs hrep hnames hkey hpk hst hi hforgive rfl
  obtain ⟨rfl, hdone⟩ := save_ends ht hdone w rfl (fun _ h => h) rfl key hsave
  have hdone := hdone hplain hstands
  have ht : WriteTarget.of (w.application cat).connections ctx o = .ok t := ht
  have hcheck : o.check = .ok () := by rw [SaveOptions.check, hcreate, hupdate]; rfl
  have hcheck' : ({ o with mustCreate := true } : SaveOptions).check = .ok () := by rw [SaveOptions.check, hupdate]; rfl
  have hsame {w' : World} (hconfined : World.Confined t.database w₁ w')
      (hrest : (w'.database t.database).store = (w₁.database t.database).store) (name : String) :
      (w'.database name).store = (w₁.database name).store := by
    by_cases hname : name = t.database
    · exact hname ▸ hrest
    · exact hconfined.others name hname
  refine ⟨?_, ?_⟩
  · obtain ⟨⟨r, rfl, hr⟩, hrest⟩ := save_rests hcheck ht (row_rests hread hb hs hrep hkey hpk hplain hcreate hforgive hdone)
      w₁ hregistry hknown (fun _ _ => trivial) rfl
    exact ⟨hr, hsame (save_confined ht s data w₁) hrest⟩
  · have ht' : WriteTarget.of (w.application cat).connections ctx { o with mustCreate := true } = .ok t := ht
    obtain ⟨⟨r, rfl, hr⟩, hrest⟩ := save_rests hcheck' ht' (row_refused hread hb hs hrep hkey hpk rfl hstands)
      w₁ hregistry hknown (fun _ _ => trivial) rfl
    exact ⟨hr, hsame (save_confined ht' s data w₁) hrest⟩

end Application

/-! ## Saves and their retries -/

namespace Retries

open Registry (built modelOf)

/-- A store that some calls have filled. -/
def world (decls : List ModelDecl) (calls : List Call) : World where
  registry := built decls
  databases := [("default", { Database.empty.play (built decls) (calls.map (default, ·)) with log := [] })]
  main := "default"
  clock := default
  tick := 0

def stored (decls : List ModelDecl) (calls : List Call) : Store := ((world decls calls).database "default").store

/-- A schema with fields for some paths of a model. -/
def schemaOf (decls : List ModelDecl) (model : String) (paths : List String) : Schema :=
  match Schema.build (built decls) {} model (modelOf (built decls) model) (paths.map fun path => { name := path }) with
  | .ok s => s
  | .error _ => default

def saved (app : Application) (w : World) (s : Schema) (data : Record) : Outcome Value × World :=
  w.runJob (app.save s data {} {})

/-- The results of a save and of its retry, each with the keys of a model and what a column of it then holds. -/
def retried (w : World) (s : Schema) (data : Record) (model column : String) :
    List (Option Value × List (Value × Value)) :=
  let first := saved (w.application {}) w s data
  [first, saved (w.application {}) first.2 s data].map fun (r, w') =>
    let m := modelOf w.registry model
    let st := (w'.database "default").store
    (r.toOption, (st.keys m).map fun k => (k, cell w.registry st m k column))

/-- Folders in folders. -/
def folders (start : Option Value) : List ModelDecl :=
  [{ name := "folder"
     fields := [.autoKey "id",
       { Field.of "parent" (.foreignKey "folder" (some "children")) with null := true, default := start }] }]

/-- A folder in none. -/
def topFolder (start : Option Value) : List Call :=
  [.insert (modelOf (built (folders start)) "folder") [("id", .int 2), ("parent", .null)]]

def folder (start : Option Value) : Schema := schemaOf (folders start) "folder" ["id", "children"]

/-- A new folder around the other. -/
def around : Record := [("id", .int 1), ("children", .list [.int 2])]

theorem readable_folders : (built (folders none)).Readable where
  distinct := by decide
  undotted := by decide
  reserved := by decide
  keys := by decide
  sides := Registry.sidesAreDeclared_of_forward (by decide)

theorem declared_schemaOf {decls : List ModelDecl} {model : String} {paths : List String}
    (hmodel : modelOf (built decls) model ∈ (built decls).models)
    (h : Schema.build (built decls) {} model (modelOf (built decls) model) (paths.map fun path => { name := path }) =
      .ok (schemaOf decls model paths)) : (schemaOf decls model paths).Declared (built decls) := .built hmodel h

theorem simple_of_columns (htop : s.model.parent = none)
    (hfields : ∀ f ∈ s.fieldList, f.nested = none ∧ (f.column.isSome → f.stampsChanges = false))
    (hcolumns : (s.fieldList.map (·.column)).Nodup)
    (halone : ∀ f ∈ s.fieldList, ∀ g ∈ s.fieldList, f.relationWrite.isSome → g.relationWrite.isSome → f.name = g.name) :
    s.Simple :=
  ⟨htop, fun f hf => (hfields f hf).1, fun f hf => (hfields f hf).2, Schema.writesApart_of_nodup hcolumns, halone⟩

theorem repeatable_folder : (folder none).Repeatable (built (folders none)) := by
  refine ⟨simple_of_columns rfl (by decide +kernel) (by decide +kernel) (by decide +kernel), ?_⟩
  have hwrites : ∀ f ∈ (folder none).fieldList, ∀ w, f.relationWrite = some w →
      w = .reverse (modelOf (built (folders none)) "folder") "parent" true := by decide +kernel
  intro f hf w hw
  rw [hwrites f hf w hw]
  refine ⟨fun _ => by decide, fun _ => ⟨by decide +kernel, fun _ g hg hname now => ?_⟩⟩
  have hplain : ∀ g ∈ (modelOf (built (folders none)) "folder").own, g.name = "parent" →
      g.autoNow = false ∧ g.autoNowAdd = false ∧ g.default = none := by decide +kernel
  obtain ⟨hauto, hadd, hdefault⟩ := hplain g hg hname
  rw [Field.initial, hauto, hadd, hdefault]
  rfl

/-- The folder around the other is saved, which is then put into it, and saving it again changes nothing. -/
theorem folder_repeats :
    let w := world (folders none) (topFolder none)
    let first := saved (w.application {}) w (folder none) around
    let again := saved (w.application {}) first.2 (folder none) around
    let anew := first.2.runJob ((w.application {}).save (folder none) around {} { mustCreate := true })
    (first.1 = .ok (.int 1) ∧ (w.database "default").store.keys (folder none).model = [.int 2] ∧
      (first.2.database "default").store.keys (folder none).model = [.int 2, .int 1]) ∧
    (again.1 = .ok (.int 1) ∧ ∀ name, (again.2.database name).store = (first.2.database name).store) ∧
      anew.1 = .error (.uniqueViolated "folder" "id") ∧
        ∀ name, (anew.2.database name).store = (first.2.database name).store := by
  intro w first again anew
  have hb : Registry.build (folders none) = .ok w.registry := rfl
  have hdeclared : (folder none).Declared (built (folders none)) := declared_schemaOf (by decide +kernel) rfl
  have hnames : (around.map Prod.fst).Nodup := by decide
  have hst : Intact w.registry (w.database "default").store := by decide +kernel
  have hi : Inherits w.registry (w.database "default").store := by
    unfold Inherits
    decide +kernel
  have hsaved : first.1 = .ok (.int 1) := Outcome.toOption_eq_some.mp (by decide +kernel)
  have hleft : (first.2.database "default").store.keys (folder none).model = [.int 2, .int 1] := by decide +kernel
  have hplain : PlainKeys w.registry (first.2.database "default").store := by
    unfold PlainKeys
    decide +kernel
  have hstands : .int 1 ∈ (first.2.database "default").store.keys (folder none).model := by
    rw [hleft]
    decide
  refine ⟨⟨hsaved, by decide +kernel, hleft⟩, ?_⟩
  exact Application.save_repeats {} hb readable_folders hdeclared repeatable_folder hnames
    (show (folder none).keyOf? around = some (.int 1) from rfl) rfl rfl rfl rfl
    (show WriteTarget.of w.connections {} {} = .ok ⟨"default", true⟩ from rfl) hst hi hsaved hplain hstands

/-- Notes with tags, one of which is the main one. -/
def notes : List ModelDecl :=
  [{ name := "tag", fields := [.autoKey "id"] },
    { name := "note"
      fields := [.autoKey "id", { Field.of "main" (.foreignKey "link" none) with null := true },
        .of "tags" (.manyToMany "tag" "link" "note" "tag" none)] },
    { name := "link"
      fields := [.autoKey "id", .of "note" (.foreignKey "note" none), .of "tag" (.foreignKey "tag" none)] }]

/-- A note whose only tag is the main one. -/
def taggedNote : List Call :=
  [.insert (modelOf (built notes) "tag") [], .insert (modelOf (built notes) "note") [],
    .insert (modelOf (built notes) "link") [("note", .int 1), ("tag", .int 1)],
    .update (.all (modelOf (built notes) "note")) [("main", .int 1)]]

/-- Edges that are linked by edges. -/
def edges : List ModelDecl :=
  [{ name := "edge"
     fields := [.autoKey "id", { Field.of "left" (.foreignKey "edge" (some "outs")) with null := true },
       { Field.of "right" (.foreignKey "edge" (some "ins")) with null := true },
       .of "next" (.manyToMany "edge" "edge" "left" "right" (some "previous"))] }]

/-- Users who are friends by one column for both. -/
def friends : List ModelDecl :=
  [{ name := "user"
     fields := [.autoKey "id", .of "friends" (.manyToMany "user" "pair" "user" "user" (some "befriended"))] },
    { name := "pair", fields := [.autoKey "id", .of "user" (.foreignKey "user" none)] }]

/-- Users with profiles whose key is the user. -/
def profiles : List ModelDecl :=
  [{ name := "user", fields := [.autoKey "id"] },
    { name := "profile"
      fields := [{ Field.of "user" (.oneToOne "user" (some "profile")) with null := true }.asPrimaryKey] }]

/-- A save through a simple schema into a store whose references lead to rows, and its retry. -/
structure Retry (decls : List ModelDecl) (calls : List Call) (s : Schema) (data : Record) (model column : String)
    (results : List (Option Value × List (Value × Value))) : Prop where
  built : Registry.build decls = .ok (built decls)
  declared : s.Declared (Registry.built decls)
  simple : s.Simple
  intact : Intact (Registry.built decls) (stored decls calls)
  results : retried (world decls calls) s data model column = results

/-- A retry may change what the save has left, or fail: where a new folder stands in itself, where a note was deleted
with its links, where an edge links itself, where both sides of a link are one column, and where the key that is to be
released is a primary key. -/
theorem retries_differ :
    Retry (folders (some (.int 1))) (topFolder (some (.int 1))) (folder (some (.int 1))) around "folder" "parent"
      [(some (.int 1), [(.int 2, .int 1), (.int 1, .int 1)]), (some (.int 1), [(.int 2, .int 1), (.int 1, .null)])] ∧
    Retry notes taggedNote (schemaOf notes "note" ["id", "tags"]) [("id", .int 1), ("tags", .list [])] "note" "main"
      [(some (.int 1), []), (some (.int 1), [(.int 1, .null)])] ∧
    Retry edges [.insert (modelOf (built edges) "edge") [("id", .int 7)]] (schemaOf edges "edge" ["id", "left", "next"])
      [("id", .int 1), ("left", .int 1), ("next", .list [.int 7])] "edge" "right"
      [(some (.int 1), [(.int 7, .null), (.int 1, .null), (.int 8, .int 7)]),
        (none, [(.int 7, .null), (.int 1, .null), (.int 8, .int 7)])] ∧
    Retry friends [.insert (modelOf (built friends) "user") [("id", .int 2)]] (schemaOf friends "user" ["id", "friends"])
      [("id", .int 1), ("friends", .list [.int 2])] "pair" "user"
      [(some (.int 1), [(.int 1, .int 2)]), (some (.int 1), [(.int 1, .int 2), (.int 2, .int 2)])] ∧
    Retry profiles [] (schemaOf profiles "user" ["id", "profile"]) [("id", .int 1), ("profile", .null)] "user" "id"
      [(some (.int 1), [(.int 1, .int 1)]), (none, [(.int 1, .int 1)])] := by
  refine ⟨⟨rfl, declared_schemaOf (by decide +kernel) rfl, ?_, by decide +kernel, by decide +kernel⟩,
    ⟨rfl, declared_schemaOf (by decide +kernel) rfl, ?_, by decide +kernel, by decide +kernel⟩,
    ⟨rfl, declared_schemaOf (by decide +kernel) rfl, ?_, by decide +kernel, by decide +kernel⟩,
    ⟨rfl, declared_schemaOf (by decide +kernel) rfl, ?_, by decide +kernel, by decide +kernel⟩,
    ⟨rfl, declared_schemaOf (by decide +kernel) rfl, ?_, by decide +kernel, by decide +kernel⟩⟩
  all_goals exact simple_of_columns rfl (by decide +kernel) (by decide +kernel) (by decide +kernel)

end Retries

end RecordMapper
