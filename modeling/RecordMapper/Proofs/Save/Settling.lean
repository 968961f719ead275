import RecordMapper.Proofs.Save.Columns
import RecordMapper.Proofs.Save.Written
import RecordMapper.Proofs.Steps.Leading
import RecordMapper.Proofs.Store.Settled

/-!
# Settling — relations that are assigned once more without a change

Assigning a relation leaves it `Settled`, whether the owner is new, and
rows are added to none, or stood before, and those that are not listed are
released (`assign_ends`). A relation that is settled is assigned once more
without a change (`assign_rests`). The row of the owner can be written once
more after its relation was assigned, if it still stands.
-/

namespace RecordMapper

open Store

namespace RelationWrite

/-- The rows of a relation of an owner are those listed. -/
def Settled (reg : Registry) (st : Store) (pk : Value) (keys : List Value) : RelationWrite → Prop
  | .manyToMany through own other =>
    LinksOnly reg st through own other pk keys ∧ ∀ k ∈ keys, LinksTo reg st through own other pk k
  | .reverse related field nullable =>
    (nullable = true → RefersOnly reg st related field pk keys) ∧
      (keys ≠ [] → RefersAll reg st related field pk keys)

/-- A relation that a save through a schema can repeat. Links stand in two different columns, in rows that are no rows
of the model themselves. A foreign key that is released is no primary key, and if it is a column of the model itself,
no field writes it and new rows leave it null. -/
def Repeatable (reg : Registry) (s : Schema) : RelationWrite → Prop
  | .manyToMany through own other => through.fieldName own ≠ through.fieldName other ∧ s.model ∉ reg.lineage through
  | .reverse related field nullable =>
    (nullable = true → field ≠ related.pkName) ∧
      (related = s.model → (∀ g ∈ s.fieldList, g.column ≠ some field) ∧
        (nullable = true → ∀ f ∈ related.own, f.name = field → ∀ now, f.initial now = .null))

end RelationWrite

variable {decls : List ModelDecl} {reg : Registry} {times : Instant → Prop} {s : Schema} {st st' st₁ : Store} {pk : Value}
  {keys : List Value} {columns : Record} {created : Bool} {database : String} {w : RelationWrite}

/-! ## Once more -/

/-- A settled relation is assigned without a change. -/
theorem RelationWrite.assign_rests (hread : reg.Readable) (hb : Registry.build decls = .ok reg)
    (hkept : w.Kept reg s.model) (hrepeatable : w.Repeatable reg s) (h : w.Settled reg st pk keys) :
    Job.Rests database reg st (w.assign database pk keys false) (· = .ok ⟨⟩) := by
  cases hkept with
  | @manyToMany through own other f g hthrough hown hfk _ hother hfk' =>
      obtain ⟨honly, hlinks⟩ := h
      refine .bind <| .delete rfl (delete_of_linksOnly hread hb hthrough hown hfk hother hfk' honly) ⟨_, rfl, ?_⟩
      obtain ⟨rows, hrows⟩ : ∃ rows, st.fetch reg (throughRows through own pk) [.ofPath other] = .ok rows :=
        ⟨_, fetch_throughRows (hread.reads hb hthrough hown (isConcrete_of_isForeignKey hfk))
          (hread.reads hb hthrough hother (isConcrete_of_isForeignKey hfk')) pk⟩
      refine .bind <| .fetch rfl ?_
      rw [hrows]
      refine ⟨rows, rfl, ?_⟩
      -- Every key is linked already, so none is missing.
      have hnone : missingLinks own other pk keys rows = [] := by
        refine List.map_eq_nil_iff.mpr (List.filter_eq_nil_iff.mpr fun k hk => ?_)
        have hpresent := (mem_present_iff hread hb hthrough hown hfk hother hfk' hrows).mpr (hlinks k hk)
        rw [List.contains_iff_mem.mpr hpresent]
        exact Bool.false_ne_true
      simp only [hnone]
      exact .pure rfl
  | @reverse related f hrelated hf hfk _ =>
      obtain ⟨honly, hall⟩ := h
      have hrest : Job.Rests database reg st (do
          if !keys.isEmpty then
            let _ ← Job.update database ((Queryset.all related).pkIn keys) [(f.name, pk)]) (· = .ok ⟨⟩) := by
        split
        · rename_i hsome
          have hne : keys ≠ [] := by simpa using hsome
          exact .bind <| .update rfl (update_of_refersAll hread hb hrelated hf (isConcrete_of_isForeignKey hfk) (hall hne))
            ⟨_, rfl, .pure rfl⟩
        · exact .pure rfl
      rw [assign]
      cases hnull : f.null with
      | false => exact hrest
      | true =>
          exact .bind <| .update rfl (update_of_refersOnly hread hb hrelated hf hfk (hrepeatable.1 hnull) (honly hnull))
            ⟨_, rfl, hrest⟩

namespace Save

/-- The row of an owner was written with some columns: it can be written with them once more, and if it is new, it was
inserted with columns that fields of the schema write. -/
structure RowWritten (reg : Registry) (s : Schema) (columns : Record) (pk : Value) (created : Bool) (st st' : Store) :
    Prop where
  orderly : Orderly reg st'
  row : Rewritable reg s.model pk columns st'
  new : created = true → ∃ now values, insert reg now st s.model values = .ok (pk, st') ∧
    ∀ e ∈ values, e.1 ≠ s.model.pkName → ∃ g ∈ s.fieldList, g.column = some e.1

/-- A relation of an owner was assigned: it is settled if no key is a float or the like, and the row of the owner can
be written once more if it stands. -/
structure RelationWritten (reg : Registry) (s : Schema) (columns : Record) (pk : Value) (keys : List Value)
    (w : RelationWrite) (st : Store) : Prop where
  settled : PlainKeys reg st → w.Settled reg st pk keys
  row : pk ∈ st.keys s.model → Rewritable reg s.model pk columns st

/-! ## Links -/

section Links

variable {through : Model} {own other : String} {f g : Field} (hread : reg.Readable)
  (hb : Registry.build decls = .ok reg) (hm : s.model ∈ reg.models) (htop : s.model.parent = none)
  (hthrough : through ∈ reg.models) (hown : reg.field? through own = some f) (hfk : f.isForeignKey)
  (hother : reg.field? through other = some g) (hfk' : g.isForeignKey)
  (hapart : through.fieldName own ≠ through.fieldName other) (hout : s.model ∉ reg.lineage through) (hpk : pk.isPlain)
  (hkeys : ∀ k ∈ keys, k.isNull = false)

/-- What stands while links of an owner are inserted. -/
structure Inserting (reg : Registry) (m through : Model) (own other : String) (pk : Value) (keys : List Value)
    (st : Store) (done : List Record) (st' : Store) : Prop where
  inherits : Inherits reg st'
  beside : Beside m st st'
  grown : ∀ t, st.keys t ⊆ st'.keys t
  kept : ∀ k, LinksTo reg st through own other pk k → LinksTo reg st' through own other pk k
  linked : ∀ k, Record.ofList [(own, pk), (other, k)] ∈ done → LinksTo reg st' through own other pk k
  only : PlainKeys reg st' → LinksOnly reg st' through own other pk keys

include hb hm hthrough hown hfk hother hfk' hapart hout hpk hkeys

theorem insertMissing_ends (hi : Inherits reg st) (honly : LinksOnly reg st through own other pk keys)
    (existing : List Record) :
    Job.Ends database reg times st ((RelationWrite.missingLinks own other pk keys existing).forM fun row => do
      let _ ← Job.insert database through row)
      fun _ st' => Inserting reg s.model through own other pk keys st
        (RelationWrite.missingLinks own other pk keys existing) st' := by
  have hr := Registry.rooted_of_build hb
  have hne : own ≠ other := fun he => hapart (he ▸ rfl)
  refine .forM ⟨hi, .refl st, fun _ => List.Subset.refl _, fun _ h => h, fun _ h => absurd h List.not_mem_nil, fun _ => honly⟩
    fun done x rest st₁ hsplit h => .bind <| .insert fun now _ y st₂ hinsert => .pure ?_
  have hx : x ∈ RelationWrite.missingLinks own other pk keys existing := hsplit ▸ List.mem_append_right _ List.mem_cons_self
  obtain ⟨k, hk, rfl⟩ := List.mem_map.mp hx
  have hlisted := (List.mem_filter.mp hk).1
  have hnull := hkeys k hlisted
  have hgrown : ∀ t, st₁.keys t ⊆ st₂.keys t := keys_subset_insert hinsert
  refine ⟨insert_inherits hr hthrough h.inherits hinsert, h.beside.trans (beside_insert (fun hname => ?_) hinsert),
    fun t => List.Subset.trans (h.grown t) (hgrown t), fun k' hk' => ?_, fun k' hk' => ?_, fun hplain => ?_⟩
  · obtain ⟨level, hl, hname⟩ := List.mem_map.mp hname
    exact hout (hr.eq_of_name hm (hr.mem_models hthrough hl) hname.symm ▸ hl)
  · exact (h.kept k' hk').insert hr hthrough hthrough h.inherits hinsert
  · rcases List.mem_append.mp hk' with hold | hnew
    · exact (h.linked k' hold).insert hr hthrough hthrough h.inherits hinsert
    · have hsame := List.mem_singleton.mp hnew
      rw [ofList_pair hne, ofList_pair hne] at hsame
      obtain rfl : k' = k := by simpa using hsame
      exact linksTo_newLink hb hthrough hown hfk hother hfk' hapart hpk hnull hinsert
  · have hplain' : PlainKeys reg st₁ := fun t ht k hk => hplain t ht k (hgrown t hk)
    exact linksOnly_newLink hb hthrough hown hfk hother hfk' hapart hpk hnull hinsert h.inherits hlisted
      (isPlain_of_newLink hb hthrough hown hfk hother hfk' hapart hpk hnull hinsert hplain) (h.only hplain')

include htop

/-- Once the missing links of an owner are inserted, and those that are there are listed, its links are settled. -/
theorem insertMissing_settles (ho : Orderly reg st) (honly : LinksOnly reg st through own other pk keys)
    (hrow : pk ∈ st.keys s.model → Rewritable reg s.model pk columns st) (existing : List Record)
    (hexisting : ∀ k ∈ existing.filterMap fun row => row.get? other, LinksTo reg st through own other pk k) :
    Job.Ends database reg times st ((RelationWrite.missingLinks own other pk keys existing).forM fun row => do
      let _ ← Job.insert database through row)
      fun _ st' => RelationWritten reg s columns pk keys (.manyToMany through own other) st' := by
  refine (insertMissing_ends hb hm hthrough hown hfk hother hfk' hapart hout hpk hkeys ho.inherits honly existing).imp
    fun _ st' h => ⟨fun hplain => ⟨h.only hplain, fun k hk => ?_⟩, fun hstands => ?_⟩
  · by_cases hpresent : k ∈ existing.filterMap fun row => row.get? other
    · exact h.kept k (hexisting k hpresent)
    · refine h.linked k (List.mem_map.mpr ⟨k, List.mem_filter.mpr ⟨hk, ?_⟩, rfl⟩)
      rw [Bool.not_eq_true', ← Bool.not_eq_true, List.contains_iff_mem]
      exact hpresent
  · rw [Store.keys, h.beside] at hstands
    exact (hrow hstands).beside (Registry.rooted_of_build hb) hm htop ho.exact h.beside fun t _ => h.grown t

end Links

/-! ## References -/

/-- The row of an owner can be written once more after a foreign key to it was updated. -/
theorem row_ends_of_update {related : Model} {f : Field} (hr : reg.Rooted) (hm : s.model ∈ reg.models)
    (htop : s.model.parent = none) (hrelated : related ∈ reg.models) (hf : f ∈ related.own) (hfk : f.isForeignKey)
    (hcolumns : ∀ e ∈ columns, related = s.model → e.1 ≠ f.name) {v : Value} (hv : v = .null ∨ v.isPlain)
    (ho : Orderly reg st) (hrow : Rewritable reg s.model pk columns st) {qs : Queryset} (hqs : qs.model = related) {n : Nat}
    (h : update reg st qs [(f.name, v)] = .ok (n, st')) :
    Orderly reg st' ∧ Rewritable reg s.model pk columns st' := by
  refine ⟨ho.update hr (hqs ▸ hrelated) h, ?_⟩
  by_cases he : related = s.model
  · exact hrow.update hr hm htop (ho.plain _ hm) hv (fun e he' => hcolumns e he' he) (hqs.trans he) h
  · have howner := columnOwner?_of_own hr hrelated hf (isConcrete_of_isForeignKey hfk)
    refine hrow.beside hr hm htop ho.exact (beside_update_of_owner hr hm hrelated (Ne.symm he) (fun e he' => ?_) h)
      fun t _ => keys_subset_update h t
    rw [List.mem_singleton.mp he', hqs]
    exact howner

/-- A new row that nothing refers to, not even the row itself. -/
theorem RowWritten.refersOnly {related : Model} {f : Field} (hread : reg.Readable) (hb : Registry.build decls = .ok reg)
    (hm : s.model ∈ reg.models) (htop : s.model.parent = none) (hrelated : related ∈ reg.models) (hf : f ∈ related.own)
    (hfk : f.isForeignKey) (hto : f.type.relatedModel? = some s.model.name)
    (hrepeatable : (RelationWrite.reverse related f.name true).Repeatable reg s) (hs : Intact reg st) (hpk : pk.isPlain)
    (h : RowWritten reg s columns pk true st st₁) : RefersOnly reg st₁ related f.name pk keys := by
  have hr := Registry.rooted_of_build hb
  obtain ⟨now, values, hinsert, hvalues⟩ := h.new rfl
  refine refersOnly_of_insert hr hs hm (not_mem_of_insert htop hinsert) hpk hinsert hrelated hf hfk hto fun hl => ?_
  rw [reg.lineage_of_top htop, List.mem_singleton] at hl
  subst hl
  obtain ⟨hunwritten, hinitial⟩ := hrepeatable.2 rfl
  have hne : f.name ≠ "pk" ∧ f.name ≠ s.model.pkName :=
    ⟨fun hpk => hrepeatable.1 rfl (hpk.trans (hread.reserved _ hm f hf hpk).symm), hrepeatable.1 rfl⟩
  have hnone : values.get? f.name = none := by
    rw [Record.get?, List.lookup_eq_none_iff]
    intro e he
    rw [bne_iff_ne]
    intro hname
    obtain ⟨g, hg, hcolumn⟩ := hvalues e he (hname ▸ hne.2)
    exact hunwritten g hg (hname ▸ hcolumn)
  have hcell : cell reg st₁ s.model pk f.name = .null := by
    refine cell_insert_getD hr hm hinsert (reg.self_mem_lineage _) hf (isConcrete_of_isForeignKey hfk) hne fun g hg hname => ?_
    have hown : g ∈ s.model.own := by
      rw [Registry.localColumns, htop] at hg
      simpa using (List.mem_filter.mp hg).1
    refine ⟨primaryKey_of_ne_key hb hm hne.2 g hg hname, ?_⟩
    rw [hnone]
    exact hinitial rfl g hown hname now
  rw [hcell, holds_exact hpk, Bool.eq_false_iff]
  exact fun heq => Value.ne_null_of_isPlain hpk ((Value.numEq_iff_of_isPlain (.inl rfl) hpk).mp heq).symm

section Assign

variable (hread : reg.Readable) (hb : Registry.build decls = .ok reg) (hm : s.model ∈ reg.models)
  (htop : s.model.parent = none) (hkept : w.Kept reg s.model) (hrepeatable : w.Repeatable reg s) (hs : Intact reg st)
  (hi : Inherits reg st) (hpk : pk.isPlain) (hkeys : ∀ k ∈ keys, k.isNull = false)
  (hcolumns : ∀ e ∈ columns, ∃ g ∈ s.fieldList, g.column = some e.1)
include hread hb hm htop hkept hrepeatable hs hi hpk hkeys hcolumns

/-- Assigning a relation settles it. -/
theorem assign_ends (h : RowWritten reg s columns pk created st st₁) :
    Job.Ends database reg times st₁ (w.assign database pk keys created) fun _ st' =>
      RelationWritten reg s columns pk keys w st' := by
  have hr := Registry.rooted_of_build hb
  cases hkept with
  | @manyToMany through own other f g hthrough hown hfk hto hother hfk' =>
      obtain ⟨hapart, hout⟩ := hrepeatable
      cases created with
      | true =>
          obtain ⟨now, values, hinsert, _⟩ := h.new rfl
          refine insertMissing_settles hb hm htop hthrough hown hfk hother hfk' hapart hout hpk hkeys h.orderly ?_
            (fun _ => h.row) _ fun k hk => absurd hk List.not_mem_nil
          refine linksOnly_of_missing hb hs hi hm (not_mem_of_insert htop hinsert) hpk hthrough hown hfk hto fun level hl => ?_
          refine beside_insert (fun hname => ?_) hinsert
          obtain ⟨m', hm', hname⟩ := List.mem_map.mp hname
          rw [reg.lineage_of_top htop, List.mem_singleton] at hm'
          subst hm'
          exact hout (hr.eq_of_name hm (hr.mem_models hthrough hl) hname ▸ hl)
      | false =>
          refine .bind <| .delete rfl fun n st₂ hdelete => .bind <| .fetch rfl fun rows hrows => ?_
          refine insertMissing_settles hb hm htop hthrough hown hfk hother hfk' hapart hout hpk hkeys
            (h.orderly.delete hr hthrough hdelete)
            (linksOnly_of_delete hread hb hthrough hown hfk hother hfk' h.orderly hdelete) (fun hstands => ?_) _ fun k hk => ?_
          · exact h.row.delete hr hm htop h.orderly.exact (by exact hthrough) hdelete hstands
          · exact (mem_present_iff hread hb hthrough hown hfk hother hfk' hrows).mp hk
  | @reverse related f hrelated hf hfk hto =>
      generalize f.null = nullable at hrepeatable ⊢
      have happly : ∀ e ∈ columns, related = s.model → e.1 ≠ f.name := fun e he hsame hname => by
        obtain ⟨g, hg, hcolumn⟩ := hcolumns e he
        exact (hrepeatable.2 hsame).1 g hg (hname ▸ hcolumn)
      have hrest : ∀ st₂, Orderly reg st₂ → Rewritable reg s.model pk columns st₂ →
          (nullable = true → RefersOnly reg st₂ related f.name pk keys) →
          Job.Ends database reg times st₂ (do
            if !keys.isEmpty then
              let _ ← Job.update database ((Queryset.all related).pkIn keys) [(f.name, pk)]) fun _ st' =>
            RelationWritten reg s columns pk keys (.reverse related f.name nullable) st' := by
        intro st₂ ho hrow honly
        refine .ite (fun _ => .bind <| .update rfl fun n st₃ hupdate => .pure ?_) fun hnone => .pure ?_
        · obtain ⟨hkeeps, hall⟩ := refers_of_update hread hb hrelated hf hfk hupdate
          obtain ⟨_, hrow'⟩ := row_ends_of_update hr hm htop hrelated hf hfk happly (.inr hpk) ho hrow rfl hupdate
          exact ⟨fun _ => ⟨fun hnull => hkeeps (honly hnull), fun _ => hall⟩, fun _ => hrow'⟩
        · have hempty : keys = [] := by simpa using hnone
          exact ⟨fun _ => ⟨honly, fun hne => absurd hempty hne⟩, fun _ => hrow⟩
      rw [RelationWrite.assign]
      cases nullable with
      | false =>
          rw [Bool.and_false]
          exact hrest st₁ h.orderly h.row nofun
      | true =>
          cases created with
          | true =>
              exact hrest st₁ h.orderly h.row fun _ => h.refersOnly hread hb hm htop hrelated hf hfk hto hrepeatable hs hpk
          | false =>
              refine .bind <| .update rfl fun n st₂ hupdate => ?_
              obtain ⟨ho, hrow⟩ := row_ends_of_update hr hm htop hrelated hf hfk happly (.inl rfl) h.orderly h.row rfl hupdate
              exact hrest st₂ ho hrow fun _ =>
                refersOnly_of_update hread hb hrelated hf hfk (Value.isNull_of_isPlain hpk) hupdate

end Assign

end Save

end RecordMapper
