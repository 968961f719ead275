import RecordMapper.Proofs.Save.Parts
import RecordMapper.Proofs.Save.Statements
import RecordMapper.Proofs.Schema.Placed
import RecordMapper.Proofs.Store.Carried
import RecordMapper.Proofs.Store.Refusals

/-!
# Columns — what a save writes into a row

The columns of a new row and those that change in an existing one are
taken from the data, from the columns that are given besides, and from
what the fields of the schema fill in: the defaults of a new row and the
stamps of changes.
-/

namespace RecordMapper

namespace SchemaField

/-- Whether the field's column is stamped with the time of every save. -/
def stampsChanges (f : SchemaField) : Bool := f.modelField.any fun m => m.autoNow && !f.isPrimaryKey

/-- What the field fills into its column at one of some times when data gives nothing for it: its default in
a new row, or the stamp of a save. -/
def FillsWith (f : SchemaField) (times : Instant → Prop) (v : Value) : Prop :=
  ∃ now, times now ∧ (f.defaultAt now = some v ∨ f.stampsChanges ∧ v = f.stamp now)

end SchemaField

/-- Some field of a schema fills a value into a column at one of some times. -/
def Schema.Fills (s : Schema) (times : Instant → Prop) (column : String) (v : Value) : Prop :=
  ∃ g ∈ s.fieldList, g.column = some column ∧ g.FillsWith times v

namespace SaveParts

open Store

variable {s : Schema} {now : Instant} {times : Instant → Prop} {parts : SaveParts} {extra : Record}
  {e : String × Value} {k : Value}

/-! ## Columns that are given -/

/-- A column is given by an entry for a field that may write it. -/
theorem mem_columns_split {op : Operation} {data : Record} (h : e ∈ (split s op data).columns) :
    ∃ entry ∈ data, ∃ f, s.field? entry.1 = some f ∧ f.isPrimaryKey = false ∧ f.mode.allows op ∧
      f.column = some e.1 ∧ e.2 = f.keyOf entry.2 ∧ f.relationWrite = none := by
  refine List.foldlRecOn (motive := fun (parts : SaveParts) => e ∈ parts.columns → _) data _
    (fun he => absurd he List.not_mem_nil) (fun parts ih entry hentry he => ?_) h
  rcases addEntry_cases s op parts entry with hadd | ⟨f, hf, hkey, hallows, hcases⟩
  · exact ih (hadd ▸ he)
  · rcases hcases with ⟨_, _, _, hadd⟩ | ⟨_, hadd⟩ | ⟨column, hwrite, hcolumn, hadd⟩
    · rw [hadd] at he
      exact ih he
    · rw [hadd] at he
      exact ih he
    · rw [hadd] at he
      rcases mem_insertEntry he with rfl | hold
      · exact ⟨entry, hentry, f, hf, hkey, hallows, hcolumn, rfl, by simpa using hwrite⟩
      · exact ih hold

/-- No column is given twice. -/
theorem nodup_names_split (op : Operation) (data : Record) : ((split s op data).columns.map Prod.fst).Nodup := by
  refine List.foldlRecOn (motive := fun parts : SaveParts => (parts.columns.map Prod.fst).Nodup) data _ List.nodup_nil
    fun parts h entry _ => ?_
  rcases addEntry_cases s op parts entry with
    hadd | ⟨_, _, _, _, ⟨_, _, _, hadd⟩ | ⟨_, hadd⟩ | ⟨_, _, _, hadd⟩⟩ <;> rw [hadd]
  · exact h
  · exact h
  · exact h
  · exact nodup_keys_insertEntry _ _ h

theorem subset_names_addEntry (op : Operation) (parts : SaveParts) (entry : String × Value) :
    parts.columns.map Prod.fst ⊆ (parts.addEntry s op entry).columns.map Prod.fst := by
  rcases addEntry_cases s op parts entry with
    hadd | ⟨_, _, _, _, ⟨_, _, _, hadd⟩ | ⟨_, hadd⟩ | ⟨_, _, _, hadd⟩⟩ <;> rw [hadd]
  · exact List.Subset.refl _
  · exact List.Subset.refl _
  · exact List.Subset.refl _
  · exact fun name hname => mem_keys_insertEntry.mpr (.inr hname)

/-- An entry for a field that may write a column gives it. -/
theorem mem_names_split {op : Operation} {data : Record} {f : SchemaField} {column : String} (he : e ∈ data)
    (hf : s.field? e.1 = some f) (hkey : f.isPrimaryKey = false) (hallows : f.mode.allows op)
    (hwrite : f.relationWrite = none) (hcolumn : f.column = some column) :
    column ∈ (split s op data).columns.map Prod.fst := by
  obtain ⟨before, after, rfl⟩ := List.append_of_mem he
  rw [split, List.foldl_append, List.foldl_cons]
  refine List.foldlRecOn (motive := fun parts : SaveParts => column ∈ parts.columns.map Prod.fst) after _ ?_
    fun parts h entry _ => subset_names_addEntry op parts entry h
  simp only [addEntry, hf, hkey, hallows, hwrite, hcolumn, Bool.not_true, Bool.or_false, Bool.false_eq_true, if_false,
    Option.isSome_none]
  exact mem_keys_insertEntry.mpr (.inl rfl)

/-- Where no other field may write the column, an entry gives it its own value. -/
theorem lookup_columns_split {op : Operation} {data : Record} {f : SchemaField} {column : String}
    (hnames : (data.map Prod.fst).Nodup) (he : e ∈ data) (hf : s.field? e.1 = some f) (hkey : f.isPrimaryKey = false)
    (hallows : f.mode.allows op) (hwrite : f.relationWrite = none) (hcolumn : f.column = some column)
    (honly : ∀ entry ∈ data, ∀ g, s.field? entry.1 = some g → g.isPrimaryKey = false → g.mode.allows op →
      g.column = some column → entry.1 = e.1) :
    (split s op data).columns.lookup column = some (f.keyOf e.2) := by
  obtain ⟨v, hv⟩ := Option.isSome_iff_exists.mp
    (lookup_isSome_iff_mem_keys.mpr (mem_names_split he hf hkey hallows hwrite hcolumn))
  obtain ⟨entry, hentry, g, hg, hgkey, hgallows, hgcolumn, rfl, _⟩ := mem_columns_split (mem_of_lookup hv)
  obtain rfl : entry = e := List.inj_on_of_nodup_map hnames hentry he (honly entry hentry g hg hgkey hgallows hgcolumn)
  obtain rfl : g = f := Option.some.inj (hg.symm.trans hf)
  exact hv

/-! ## Columns of a row -/

/-- What stands in a new row was given, is its key, or is filled in. -/
theorem mem_createColumns {pk : Option Value} (hnow : times now)
    (h : e ∈ parts.createColumns s now pk extra) :
    e ∈ parts.columns ∨ e.1 = s.model.pkName ∨ e ∈ extra ∨ s.Fills times e.1 e.2 := by
  refine List.foldlRecOn (motive := fun (out : Record) => e ∈ out → e ∈ parts.columns ∨
    e.1 = s.model.pkName ∨ e ∈ extra ∨ s.Fills times e.1 e.2) s.fieldList _ (fun he => ?_)
    (fun out ih g hg he => ?_) h
  · rcases Record.mem_extend he with hgiven | hextra
    · cases pk with
      | none => exact .inl hgiven
      | some pk =>
          rcases mem_insertEntry hgiven with rfl | hold
          · exact .inr (.inl rfl)
          · exact .inl hold
    · exact .inr (.inr (.inl hextra))
  · split at he
    · rename_i column v hcolumn hdefault
      split at he
      · exact ih he
      · rcases mem_insertEntry he with rfl | hold
        · exact .inr (.inr (.inr ⟨g, hg, hcolumn, now, hnow, .inl hdefault⟩))
        · exact ih hold
    · exact ih he

/-- What changes in a row was given or is stamped. -/
theorem mem_updateColumns_stamped (h : e ∈ parts.updateColumns s now extra) :
    e ∈ parts.columns ∨ e ∈ extra ∨ ∃ g ∈ s.fieldList, g.column = some e.1 ∧ g.stampsChanges ∧ e.2 = g.stamp now := by
  refine List.foldlRecOn (motive := fun (out : Record) => e ∈ out → e ∈ parts.columns ∨ e ∈ extra ∨
    ∃ g ∈ s.fieldList, g.column = some e.1 ∧ g.stampsChanges ∧ e.2 = g.stamp now) s.fieldList _
    (fun he => (Record.mem_extend he).imp_right .inl) (fun out ih g hg he => ?_) h
  split at he
  · rename_i column m hcolumn hm
    split at he
    · rename_i hstamps
      rcases mem_insertEntry he with rfl | hold
      · refine .inr (.inr ⟨g, hg, hcolumn, ?_, rfl⟩)
        rw [SchemaField.stampsChanges, hm, Option.any_some, hstamps]
      · exact ih hold
    · exact ih he
  · exact ih he

/-- What changes in a row was given or is filled in. -/
theorem mem_updateColumns (hnow : times now) (h : e ∈ parts.updateColumns s now extra) :
    e ∈ parts.columns ∨ e ∈ extra ∨ s.Fills times e.1 e.2 :=
  (mem_updateColumns_stamped h).imp_right <| .imp_right fun ⟨g, hg, hcolumn, hstamp⟩ =>
    ⟨g, hg, hcolumn, now, hnow, .inr hstamp⟩

/-- What is given changes. -/
theorem subset_names_updateColumns (now : Instant) (parts : SaveParts) :
    parts.columns.map Prod.fst ⊆ (parts.updateColumns s now []).map Prod.fst := by
  intro name hname
  refine List.foldlRecOn (motive := fun (out : Record) => name ∈ out.map Prod.fst) s.fieldList _ hname
    fun out hout g _ => ?_
  split
  · split
    · exact mem_keys_insertEntry.mpr (.inr hout)
    · exact hout
  · exact hout

/-- Defaults leave what stands in a new row already. -/
theorem lookup_createColumns_of_given {pk : Option Value} {column : String} {v : Value}
    (h : ((pk.elim parts.columns fun k => parts.columns.insert s.model.pkName k).extend extra).lookup column = some v) :
    (parts.createColumns s now pk extra).lookup column = some v := by
  refine List.foldlRecOn (motive := fun (out : Record) => out.lookup column = some v) _ _ ?_ fun out hout f _ => ?_
  · cases pk <;> exact h
  · split
    · rename_i column' v' _ _
      split
      · exact hout
      · -- The column stands already, so a default for it does not count.
        rename_i hhas
        rw [Record.lookup_insert_ne _ _ v']
        · exact hout
        · rintro rfl
          exact hhas (List.any_eq_true.mpr ⟨_, mem_of_lookup hout, beq_self_eq_true _⟩)
    · exact hout

/-- A new row has the key that is given, unless further columns override it. -/
theorem lookup_createColumns (hextra : ∀ e ∈ extra, e.1 ≠ s.model.pkName) (now : Instant) (parts : SaveParts) :
    (parts.createColumns s now (some k) extra).lookup s.model.pkName = some k :=
  lookup_createColumns_of_given <|
    (Record.lookup_extend_of_not_mem _ hextra).trans (Record.lookup_insert_self ..)

/-- A new row has the columns that are given. -/
theorem lookup_createColumns_of_columns {column : String} {v : Value} (hne : column ≠ s.model.pkName)
    (h : parts.columns.lookup column = some v) (now : Instant) (pk : Option Value) :
    (parts.createColumns s now pk []).lookup column = some v := by
  refine lookup_createColumns_of_given ?_
  cases pk with
  | none => exact h
  | some pk => exact (Record.lookup_insert_ne _ hne pk).trans h

theorem givenKey?_createColumns (hk : k.isNull = false) (hextra : ∀ e ∈ extra, e.1 ≠ s.model.pkName)
    (now : Instant) (parts : SaveParts) :
    givenKey? s.model (parts.createColumns s now (some k) extra) = some k := by
  rw [givenKey?, Record.get?, lookup_createColumns hextra, Option.some_or, Option.filter_some, hk]
  rfl

end SaveParts

/-! ## Columns of the model -/

namespace Save

open Store

variable {reg : Registry} {s : Schema} {data : Record} {now : Instant}

/-- The columns of a new row are columns of the model. -/
theorem namesRow_createColumns (hs : s.Declared reg) (now : Instant) (pk : Value) (data : Record) :
    NamesRow reg s.model (some pk) ((SaveParts.split s .create data).createColumns s now (some pk) []) := by
  refine ⟨SaveParts.lookup_createColumns (List.forall_mem_nil _) now _, fun e he hne => ?_⟩
  have hcolumn : ∃ f ∈ s.fieldList, f.column = some e.1 := by
    rcases @SaveParts.mem_createColumns s now (· = now) _ _ _ _ rfl he with hgiven | hkey | hmore | ⟨f, hf, hcolumn, _⟩
    · obtain ⟨_, _, f, hf, hcolumn⟩ := (fromData_split s .create data).columns e hgiven
      exact ⟨f, Schema.mem_fieldList_of_field? hf, hcolumn⟩
    · exact absurd hkey hne
    · cases hmore
    · exact ⟨f, hf, hcolumn⟩
  obtain ⟨f, hf, hcolumn⟩ := hcolumn
  obtain ⟨c, _, _, hconcrete, halias, hfield⟩ := (hs.written hf).placed.field_of_column hcolumn hne
  exact ⟨halias, c, hfield, hconcrete⟩

theorem namesRow_localTo {key : Option Value} {columns : Record} (h : NamesRow reg s.model key columns) :
    NamesRow reg s.model (if (reg.localColumns s.model).any (·.name == s.model.pkName) then key else none)
      (columns.localTo reg s.model) := by
  refine ⟨?_, fun e he => h.columns e (List.mem_filter.mp he).1⟩
  rw [← h.key]
  exact lookup_filter_keys (fun name => (reg.localColumns s.model).any (·.name == name)) columns _

/-- What changes in a row are columns of the model, and its key is none of them. -/
theorem updatable_updateColumns (hs : s.Declared reg) (now : Instant) (data : Record) :
    Updatable reg s.model ((SaveParts.split s .update data).updateColumns s now []) := by
  refine updatable_of_columns fun e he => ?_
  obtain ⟨f, hf, hcolumn, hkey⟩ : ∃ f ∈ s.fieldList, f.column = some e.1 ∧ f.isPrimaryKey = false := by
    rcases SaveParts.mem_updateColumns_stamped he with hgiven | hmore | ⟨f, hf, hcolumn, hstamps, _⟩
    · obtain ⟨_, _, f, hf, hkey, _, hcolumn, _⟩ := SaveParts.mem_columns_split hgiven
      exact ⟨f, Schema.mem_fieldList_of_field? hf, hcolumn, hkey⟩
    · cases hmore
    · obtain ⟨_, _, hstamps⟩ := (Option.any_eq_true _ _).mp hstamps
      exact ⟨f, hf, hcolumn, (Bool.not_eq_true' _).mp (Bool.and_eq_true_iff.mp hstamps).2⟩
  have hplaced := (hs.written hf).placed
  have hne : e.1 ≠ s.model.pkName := fun hname => by
    rw [(hplaced.isPrimaryKey_iff hcolumn).mpr hname] at hkey
    cases hkey
  obtain ⟨c, _, _, hconcrete, halias, hfield⟩ := hplaced.field_of_column hcolumn hne
  exact ⟨⟨halias, hne⟩, c, hfield, hconcrete⟩

/-- So are the columns of a row without its key. -/
theorem updatable_withoutKey {key : Option Value} {columns : Record} (h : NamesRow reg s.model key columns) :
    Updatable reg s.model (columns.withoutKey s.model) := by
  refine updatable_of_columns fun e he => ?_
  obtain ⟨he, halias⟩ := List.mem_filter.mp he
  obtain ⟨he, hkey⟩ := List.mem_filter.mp he
  have hne : e.1 ≠ s.model.pkName := by simpa using hkey
  exact ⟨⟨by simpa using halias, hne⟩, (h.columns e he hne).2⟩

end Save

end RecordMapper
