import RecordMapper.Proofs.Read.Scoped
import RecordMapper.Proofs.Read.Whole

/-!
# Needed fields — what a plan has of each field

A plan has its parts from the fields that are needed: a column for each
that is fetched with the row, a value to start with for each of the
others, and the columns of the forced expressions behind them
(`make_eq_ok`).
-/

namespace RecordMapper

namespace SchemaField

variable {f : SchemaField}

/-- The value of the field is fetched with the row. -/
def isFetched (f : SchemaField) : Bool := !f.isIsolated && !f.isUnmapped

/-- The value of the field is computed from the row. -/
def isComputed (f : SchemaField) : Bool := f.isUnmapped && f.property.isSome

/-- The value that a field which is not fetched has before it is resolved or computed. -/
def startAt (f : SchemaField) (now : Instant) : Value :=
  if f.isIsolated then f.placeholder
  else if f.property.isSome then .null
  else (f.defaultAt now).getD .null

/-- The columns that can fetch a field: its own path, or its expression as it is prepared. -/
inductive FetchedBy (reg : Registry) (m : Model) (sliced : Bool) (f : SchemaField) : SelectColumn → Prop
  | column {path : String} (kind : f.kind = .column path) : FetchedBy reg m sliced f ⟨f.name, .column path⟩
  | expression {e e' : Expression} (kind : f.kind = .expression e) (prepared : ReadPlan.prepare reg m sliced e = .ok e') :
      FetchedBy reg m sliced f ⟨f.name, e'⟩

theorem FetchedBy.label {reg : Registry} {m : Model} {sliced : Bool} {c : SelectColumn}
    (h : f.FetchedBy reg m sliced c) : c.label = f.name := by
  cases h <;> rfl

/-- A field is fetched by one column alone. -/
theorem FetchedBy.expr_eq {reg : Registry} {m : Model} {sliced : Bool} {c c' : SelectColumn}
    (h : f.FetchedBy reg m sliced c) (h' : f.FetchedBy reg m sliced c') : c.expr = c'.expr := by
  cases h with
  | column kind =>
      cases h' with
      | column kind' =>
          rw [kind] at kind'
          cases kind'
          rfl
      | expression kind' _ =>
          rw [kind] at kind'
          cases kind'
  | expression kind prepared =>
      cases h' with
      | column kind' =>
          rw [kind] at kind'
          cases kind'
      | expression kind' prepared' =>
          rw [kind] at kind'
          cases kind'
          exact Except.ok.inj (prepared.symm.trans prepared')

theorem isFetched_of_kind {path : String} (h : f.kind = .column path) : f.isFetched := by
  rw [isFetched, isIsolated, isUnmapped, h]
  rfl

theorem isFetched_eq_false (h : f.isFetched = false) : f.isIsolated ∨ f.isUnmapped := by
  rw [isFetched, Bool.and_eq_false_iff, Bool.not_eq_false', Bool.not_eq_false'] at h
  exact h

theorem isFetched_of_isComputed (h : f.isComputed) : f.isFetched = false := by
  rw [isFetched, (Bool.and_eq_true_iff.mp h).1, Bool.not_true, Bool.and_false]

theorem isIsolated_of_isComputed (h : f.isComputed) : f.isIsolated = false :=
  ReadPlan.isIsolated_eq_false_of_isUnmapped (Bool.and_eq_true_iff.mp h).1

end SchemaField

namespace ReadPlan

variable {reg : Registry} {s : Schema} {ctx : Context} {m : Model} {sliced : Bool} {now : Instant}
  {plan plan' : ReadPlan} {fields : List SchemaField}

/-- The fields that a read goes by. -/
def neededFields (s : Schema) (ctx : Context) : List SchemaField := s.fieldList.filter fun f => needs s ctx f.name

theorem mem_neededFields {f : SchemaField} : f ∈ neededFields s ctx ↔ f ∈ s.fieldList ∧ needs s ctx f.name := List.mem_filter

theorem nodup_neededFields (hnames : (s.fieldList.map (·.name)).Nodup) :
    ((neededFields s ctx).map (·.name)).Nodup := hnames.sublist (List.filter_sublist.map _)

/-- What is put into prefilled rows for fields that are not fetched. -/
def starts (now : Instant) (fields : List SchemaField) : Record :=
  (fields.filter fun f => !f.isFetched).map fun f => (f.name, f.startAt now)

open SchemaField (isFetched isIsolated isUnmapped isComputed startAt) in
/-- What a field adds to a plan: its column, or its value to start with and itself. -/
theorem addField_eq_ok {f : SchemaField} (h : addField reg m sliced now plan f = .ok plan') :
    ∃ columns : List SelectColumn, List.Forall₂ (SchemaField.FetchedBy reg m sliced) ([f].filter (·.isFetched)) columns ∧
      plan' = ⟨plan.columns ++ columns, plan.isolated ++ [f].filter (·.isIsolated), plan.initial.extend (starts now [f]),
        plan.computed ++ [f].filter (·.isComputed), plan.output⟩ := by
  unfold addField at h
  cases hkind : f.kind with
  | column path =>
      simp only [hkind] at h
      cases h
      exact ⟨[⟨f.name, .column path⟩], by simp [SchemaField.FetchedBy.column hkind, isFetched, isIsolated, isUnmapped, hkind],
        by simp [starts, isFetched, isIsolated, isUnmapped, isComputed, hkind, Record.extend]⟩
  | expression e =>
      simp only [hkind] at h
      obtain ⟨e', he, h⟩ := Outcome.bind_eq_ok.mp h
      cases h
      exact ⟨[⟨f.name, e'⟩], by simp [SchemaField.FetchedBy.expression hkind he, isFetched, isIsolated, isUnmapped, hkind],
        by simp [starts, isFetched, isIsolated, isUnmapped, isComputed, hkind, Record.extend]⟩
  | isolated how =>
      simp only [hkind] at h
      cases h
      exact ⟨[], by simp [isFetched, isIsolated, hkind],
        by simp [starts, startAt, isFetched, isIsolated, isUnmapped, isComputed, hkind, Record.extend]⟩
  | unmapped =>
      simp only [hkind] at h
      cases hproperty : f.property with
      | none =>
          simp only [hproperty] at h
          cases h
          exact ⟨[], by simp [isFetched, isUnmapped, hkind],
            by simp [starts, startAt, isFetched, isIsolated, isUnmapped, isComputed, hkind, hproperty, Record.extend]⟩
      | some p =>
          simp only [hproperty] at h
          cases h
          exact ⟨[], by simp [isFetched, isUnmapped, hkind],
            by simp [starts, startAt, isFetched, isIsolated, isUnmapped, isComputed, hkind, hproperty, Record.extend]⟩

/-- What several fields add to a plan. -/
theorem addFields_eq_ok (h : fields.foldlM (addField reg m sliced now) plan = .ok plan') :
    ∃ columns : List SelectColumn, List.Forall₂ (SchemaField.FetchedBy reg m sliced) (fields.filter (·.isFetched)) columns ∧
      plan' = ⟨plan.columns ++ columns, plan.isolated ++ fields.filter (·.isIsolated),
        plan.initial.extend (starts now fields), plan.computed ++ fields.filter (·.isComputed), plan.output⟩ := by
  induction fields generalizing plan with
  | nil =>
      cases h
      exact ⟨[], .nil, by simp [starts, Record.extend]⟩
  | cons f rest ih =>
      rw [List.foldlM_cons] at h
      obtain ⟨middle, hmiddle, h⟩ := Outcome.bind_eq_ok.mp h
      obtain ⟨own, hown, rfl⟩ := addField_eq_ok hmiddle
      obtain ⟨columns, hcolumns, rfl⟩ := ih h
      have hall : ∀ p : SchemaField → Bool, (f :: rest).filter p = [f].filter p ++ rest.filter p :=
        fun p => List.filter_append (p := p) [f] rest
      have hstarts : starts now (f :: rest) = starts now [f] ++ starts now rest := by
        rw [starts, hall, List.map_append]
        rfl
      refine ⟨own ++ columns, by rw [hall]; exact List.rel_append hown hcolumns, ?_⟩
      simp only [hall, hstarts, Record.extend, List.foldl_append, List.append_assoc]

/-- What is in a plan that is made: the columns, the isolated fields, the values to start with and the computed fields
are those of the needed fields, in the order of the schema, and the forced expressions come behind them. -/
theorem make_eq_ok (h : make reg s ctx sliced now = .ok plan) : ∃ columns more : List SelectColumn,
    List.Forall₂ (SchemaField.FetchedBy reg s.model sliced) ((neededFields s ctx).filter (·.isFetched)) columns ∧
    List.Forall₂ (Forces reg s.model sliced) ctx.forced more ∧
    plan = ⟨columns ++ more, (neededFields s ctx).filter (·.isIsolated), Record.extend [] (starts now (neededFields s ctx)),
      (neededFields s ctx).filter (·.isComputed), (requested s ctx).map (·.name) ++ ctx.forced.map Prod.fst⟩ := by
  unfold make at h
  obtain ⟨middle, hmiddle, h⟩ := Outcome.bind_eq_ok.mp h
  obtain ⟨columns, hcolumns, rfl⟩ := addFields_eq_ok hmiddle
  obtain ⟨more, hmore, rfl⟩ := foldlM_addForced h
  exact ⟨columns, more, hcolumns, hmore, by simp [neededFields, needs]⟩

/-- A name that needed fields have only if they are fetched is not that of a field that is resolved, computed or put in
from the start. -/
theorem parts_of_fetched {name : String} (h : make reg s ctx sliced now = .ok plan)
    (hfetched : ∀ f ∈ neededFields s ctx, f.name = name → f.isFetched) :
    name ∉ plan.isolated.map (·.name) ∧ (∀ f ∈ plan.computed, f.name ≠ name) ∧ ∀ e ∈ plan.initial, e.1 ≠ name := by
  obtain ⟨columns, more, -, -, rfl⟩ := make_eq_ok h
  refine ⟨fun hmem => ?_, fun f hf hname => ?_, fun e he hname => ?_⟩
  · obtain ⟨f, hf, hname⟩ := List.mem_map.mp hmem
    obtain ⟨hf, hisolated⟩ := List.mem_filter.mp hf
    have hyes := hfetched f hf hname
    rw [SchemaField.isFetched, hisolated] at hyes
    cases hyes
  · obtain ⟨hf, hcomputed⟩ := List.mem_filter.mp hf
    have hyes := hfetched f hf hname
    rw [SchemaField.isFetched_of_isComputed hcomputed] at hyes
    cases hyes
  · have hentry : e ∈ starts now (neededFields s ctx) := (Record.mem_extend he).resolve_left List.not_mem_nil
    obtain ⟨f, hf, rfl⟩ := List.mem_map.mp hentry
    obtain ⟨hf, hnot⟩ := List.mem_filter.mp hf
    rw [hfetched f hf hname] at hnot
    cases hnot

end ReadPlan

end RecordMapper

/-!
## Computed fields — properties of a row, one after another

The computed fields of a row are put in one after another, in the order of
the schema. So what a property is computed from is the row as it stands
when its turn comes, with null under every computed field that does not
come before it (`exists_seen`); it is the whole row for a property that
depends on none of these (`lookup_compute_whole`).
-/

namespace RecordMapper

namespace Schema

/-- A field comes before another. -/
def Precedes (s : Schema) (d f : SchemaField) : Prop :=
  s.fieldList.findIdx (·.name == d.name) < s.fieldList.findIdx (·.name == f.name)

instance (s : Schema) (d f : SchemaField) : Decidable (s.Precedes d f) := inferInstanceAs (Decidable (_ < _))

/-- Properties read nothing of a row but what they depend on. -/
def ReadsOnlyDeps (s : Schema) : Prop :=
  ∀ f ∈ s.fieldList, ∀ p, f.property = some p → ∀ row row' : Record,
    (∀ name ∈ p.deps, row.lookup name = row'.lookup name) → p.compute row = p.compute row'

theorem precedes_iff {s : Schema} {d f : SchemaField} {before after : List SchemaField}
    (hnames : (s.fieldList.map (·.name)).Nodup) (h : s.fieldList = before ++ f :: after) (hd : d ∈ s.fieldList) :
    s.Precedes d f ↔ d ∈ before := by
  have hnot : f.name ∉ before.map (·.name) := by
    rw [h, List.map_append, List.map_cons] at hnames
    exact fun hmem => (List.nodup_append.mp hnames).2.2 _ hmem _ List.mem_cons_self rfl
  have hf : s.fieldList.findIdx (·.name == f.name) = before.length := by
    have hbefore : ¬before.findIdx (·.name == f.name) < before.length := by
      rw [List.findIdx_lt_length]
      rintro ⟨g, hg, hname⟩
      exact hnot (List.mem_map.mpr ⟨g, hg, eq_of_beq hname⟩)
    rw [h, List.findIdx_append, if_neg hbefore, List.findIdx_cons]
    simp
  have hiff : before.findIdx (·.name == d.name) < before.length ↔ d ∈ before := by
    rw [List.findIdx_lt_length]
    constructor
    · rintro ⟨g, hg, hname⟩
      have hmem : g ∈ s.fieldList := h ▸ List.mem_append_left _ hg
      rwa [← List.inj_on_of_nodup_map hnames hmem hd (eq_of_beq hname)]
    · exact fun hmem => ⟨d, hmem, beq_self_eq_true _⟩
  rw [Precedes, hf, ← hiff, h, List.findIdx_append]
  split <;> omega

end Schema

namespace ReadPlan

variable {reg : Registry} {s : Schema} {ctx : Context} {sliced : Bool} {now : Instant} {plan : ReadPlan}
  {f : SchemaField} {p : Property} {row : Record}

/-- The fields that a read computes. -/
def computedFields (s : Schema) (ctx : Context) : List SchemaField := (neededFields s ctx).filter (·.isComputed)

theorem mem_computedFields : f ∈ computedFields s ctx ↔ f ∈ s.fieldList ∧ needs s ctx f.name ∧ f.isComputed := by
  rw [computedFields, List.mem_filter, mem_neededFields, and_assoc]

theorem nodup_computedFields (hnames : (s.fieldList.map (·.name)).Nodup) :
    ((computedFields s ctx).map (·.name)).Nodup := (nodup_neededFields hnames).sublist (List.filter_sublist.map _)

/-! ## One property after another -/

/-- The turn of a computed field: it is computed from a row that has the fields before it, and not those behind. -/
theorem exists_turn {before after : List SchemaField} (hcomputed : plan.computed = before ++ f :: after)
    (hnames : (plan.computed.map (·.name)).Nodup) (hp : f.property = some p) (row : Record) :
    ∃ seen : Record, (plan.compute row).lookup f.name = some (p.compute seen) ∧
      (∀ d ∈ f :: after, seen.lookup d.name = row.lookup d.name) ∧
      ∀ name, (∀ d ∈ f :: after, d.name ≠ name) → seen.lookup name = (plan.compute row).lookup name := by
  rw [hcomputed, List.map_append, List.map_cons] at hnames
  obtain ⟨-, hrest, hapart⟩ := List.nodup_append.mp hnames
  obtain ⟨hf, -⟩ := List.nodup_cons.mp hrest
  let seen := compute { plan with computed := before } row
  have hcompute : plan.compute row = compute { plan with computed := after } (seen.insert f.name (p.compute seen)) := by
    rw [compute, hcomputed, List.foldl_append, List.foldl_cons, hp]
    rfl
  refine ⟨seen, ?_, fun d hd => ?_, fun name hname => ?_⟩
  · rw [hcompute, lookup_compute fun g hg hname => hf (List.mem_map.mpr ⟨g, hg, hname⟩), Record.lookup_insert_self]
  · refine lookup_compute (fun g hg hname => ?_) row
    exact hapart _ (List.mem_map_of_mem hg) _ (List.mem_map_of_mem hd) hname
  · have hkept := Record.lookup_insert_ne seen (Ne.symm (hname f List.mem_cons_self)) (p.compute seen)
    rw [hcompute]
    exact (hkept.symm.trans (lookup_compute (fun g hg => hname g (List.mem_cons_of_mem f hg)) _).symm)

/-- A field is computed from the row in which the computed fields that do not come before it are null. -/
theorem exists_seen (hnames : (s.fieldList.map (·.name)).Nodup) (hplan : plan.computed = computedFields s ctx)
    (hnull : ∀ d ∈ computedFields s ctx, row.lookup d.name = some .null) (hf : f ∈ computedFields s ctx)
    (hp : f.property = some p) :
    ∃ seen : Record, (plan.compute row).lookup f.name = some (p.compute seen) ∧
      (∀ d ∈ computedFields s ctx, ¬s.Precedes d f → seen.lookup d.name = some .null) ∧
      ∀ name, (∀ d ∈ computedFields s ctx, ¬s.Precedes d f → d.name ≠ name) →
        seen.lookup name = (plan.compute row).lookup name := by
  obtain ⟨hmem, hneeded, hcomputed⟩ := mem_computedFields.mp hf
  obtain ⟨before, after, hfields⟩ := List.append_of_mem hmem
  let turns : SchemaField → Bool := fun g => g.isComputed && needs s ctx g.name
  have hturn : turns f = true := Bool.and_eq_true_iff.mpr ⟨hcomputed, hneeded⟩
  have hsplit : plan.computed = before.filter turns ++ f :: after.filter turns := by
    rw [hplan, computedFields, neededFields, List.filter_filter, hfields, List.filter_append,
      List.filter_cons_of_pos hturn]
  have hall : ∀ d, d ∈ computedFields s ctx ↔ d ∈ before.filter turns ∨ d ∈ f :: after.filter turns := fun d => by
    rw [← hplan, hsplit, List.mem_append]
  have hbehind : ∀ d ∈ f :: after.filter turns, d ∈ computedFields s ctx ∧ ¬s.Precedes d f := by
    intro d hd
    have hdf := (hall d).mpr (.inr hd)
    refine ⟨hdf, fun hprecedes => ?_⟩
    have hbefore := (Schema.precedes_iff hnames hfields (mem_computedFields.mp hdf).1).mp hprecedes
    have hd' : d ∈ f :: after := by
      rcases List.mem_cons.mp hd with rfl | hd
      · exact List.mem_cons_self
      · exact List.mem_cons_of_mem f (List.mem_filter.mp hd).1
    rw [hfields, List.map_append] at hnames
    exact (List.nodup_append.mp hnames).2.2 _ (List.mem_map_of_mem hbefore) _ (List.mem_map_of_mem hd') rfl
  obtain ⟨seen, hvalue, hstart, hkept⟩ := exists_turn hsplit (hplan ▸ nodup_computedFields hnames) hp row
  refine ⟨seen, hvalue, fun d hd hnot => ?_, fun name hname => hkept name fun d hd => ?_⟩
  · rcases (hall d).mp hd with hbefore | hrest
    · have hbefore := (List.mem_filter.mp hbefore).1
      exact absurd ((Schema.precedes_iff hnames hfields (mem_computedFields.mp hd).1).mpr hbefore) hnot
    · rw [hstart d hrest]
      exact hnull d hd
  · exact hname d (hbehind d hd).1 (hbehind d hd).2

/-- A property that depends on computed fields before it alone is computed from the whole row. -/
theorem lookup_compute_whole (hnames : (s.fieldList.map (·.name)).Nodup) (hreads : s.ReadsOnlyDeps)
    (hplan : plan.computed = computedFields s ctx)
    (hnull : ∀ d ∈ computedFields s ctx, row.lookup d.name = some .null) (hf : f ∈ computedFields s ctx)
    (hp : f.property = some p) (hdeps : ∀ d ∈ computedFields s ctx, d.name ∈ p.deps → s.Precedes d f) :
    (plan.compute row).lookup f.name = some (p.compute (plan.compute row)) := by
  obtain ⟨seen, hvalue, -, hkept⟩ := exists_seen hnames hplan hnull hf hp
  rw [hvalue]
  refine congrArg some (hreads f (mem_computedFields.mp hf).1 p hp _ _ fun name hname => hkept name ?_)
  rintro d hd hnot rfl
  exact hnot (hdeps d hd hname)

/-! ## Prefilled rows -/

theorem computed_of_make (h : make reg s ctx sliced now = .ok plan) : plan.computed = computedFields s ctx := by
  obtain ⟨_, _, -, -, rfl⟩ := make_eq_ok h
  rfl

/-- A prefilled row has the value to start with of every needed field that is not fetched. -/
theorem lookup_prefill_start (hnames : (s.fieldList.map (·.name)).Nodup) (h : make reg s ctx sliced now = .ok plan)
    (hf : f ∈ neededFields s ctx) (hfetched : f.isFetched = false) (row : Record) :
    (plan.prefill row).lookup f.name = some (f.startAt now) := by
  have hvalue : ∀ e ∈ starts now (neededFields s ctx), e.1 = f.name → e.2 = f.startAt now := by
    intro e he hname
    obtain ⟨g, hg, rfl⟩ := List.mem_map.mp he
    have hmem := (mem_neededFields.mp (List.mem_filter.mp hg).1).1
    rw [List.inj_on_of_nodup_map hnames hmem (mem_neededFields.mp hf).1 hname]
  have hthere : ∃ e ∈ starts now (neededFields s ctx), e.1 = f.name := by
    refine ⟨(f.name, f.startAt now), List.mem_map_of_mem (List.mem_filter.mpr ⟨hf, ?_⟩), rfl⟩
    rw [hfetched]
    rfl
  obtain ⟨_, _, -, -, rfl⟩ := make_eq_ok h
  refine Record.lookup_extend_of_mem row (fun e he hname => ?_) ?_
  · exact hvalue e ((Record.mem_extend he).resolve_left List.not_mem_nil) hname
  · exact ⟨_, mem_of_lookup (Record.lookup_extend_of_mem [] hvalue hthere), rfl⟩

/-- Fields that are computed start with null. -/
theorem lookup_prefill_computed (hnames : (s.fieldList.map (·.name)).Nodup) (h : make reg s ctx sliced now = .ok plan)
    (hf : f ∈ computedFields s ctx) (row : Record) : (plan.prefill row).lookup f.name = some .null := by
  obtain ⟨hmem, hneeded, hcomputed⟩ := mem_computedFields.mp hf
  rw [lookup_prefill_start hnames h (mem_neededFields.mpr ⟨hmem, hneeded⟩)
    (SchemaField.isFetched_of_isComputed hcomputed), SchemaField.startAt, SchemaField.isIsolated_of_isComputed hcomputed,
    if_neg Bool.false_ne_true, if_pos (Bool.and_eq_true_iff.mp hcomputed).2]

end ReadPlan

end RecordMapper
