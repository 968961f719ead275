import RecordMapper.Proofs.Read.Unfiltered
import RecordMapper.Proofs.Save.Written
import RecordMapper.Proofs.Schema.Declared

/-!
# Skipped — failures that leave no trace

In a transaction a record or a relation that is passed over has run in a
transaction of its own, so the stores after it are those before it, and
whatever follows cannot tell that it was there. Hence a save of many
records does what it does for those of them that succeed, and a save of
one record what it does without the relations that it passes over.
-/

namespace RecordMapper

open World

namespace Save

variable {app : Application} {t : WriteTarget} {o : SaveOptions} {save : Record → Job Value} {w w' : World}

/-! ## Many records -/

/-- The records that have keys. -/
def kept (items : List Record) (keys : List (Option Value)) : List Record :=
  ((items.zip keys).filter fun e => e.2.isSome).map Prod.fst

/-- Where failures are passed over, a record has a key if its own save succeeds. -/
theorem runJob_each_cons (hskip : o.skipFailed) (save : Record → Job Value) (t : WriteTarget) (item : Record)
    (rest : List Record) (w : World) :
    let own := w.runJob (Job.atomicIf t.transactional t.database (save item))
    let others := own.2.runJob (each save t o rest)
    w.runJob (each save t o (item :: rest)) = (others.1.map (own.1.toOption :: ·), others.2) := by
  intro own others
  simp only [others, own, each, List.mapM_cons, hskip, if_true, runJob_bind, runJob_attempt]
  generalize w.runJob (Job.atomicIf t.transactional t.database (save item)) = own
  have hpure : ∀ (keys : Option Value) (w : World), w.runJob (pure keys : Job (Option Value)) = (.ok keys, w) :=
    fun _ _ => rfl
  rcases own with ⟨pk | f, w'⟩
  all_goals
    simp only [hpure]
    split
    · rename_i keys hkeys
      simp only [hkeys]
      rfl
    · rename_i f hf
      simp only [hf]
      rfl

/-- Where failures are passed over, every record has its key or none, each as its own save has it after
those before it. -/
theorem each_own (hskip : o.skipFailed) (save : Record → Job Value) (t : WriteTarget) (items : List Record)
    (w : World) : ∃ keys, (w.runJob (each save t o items)).1 = .ok keys ∧ keys.length = items.length ∧
      ∀ i (h : i < items.length), keys[i]? = some ((w.runJob (each save t o (items.take i))).2.runJob
        (Job.atomicIf t.transactional t.database (save items[i]))).1.toOption := by
  induction items generalizing w with
  | nil => exact ⟨[], rfl, rfl, fun i h => absurd h (Nat.not_lt_zero i)⟩
  | cons item rest ih =>
      obtain ⟨keys, hkeys, hlength, hown⟩ :=
        ih (w.runJob (Job.atomicIf t.transactional t.database (save item))).2
      refine ⟨(w.runJob (Job.atomicIf t.transactional t.database (save item))).1.toOption :: keys, ?_,
        congrArg (· + 1) hlength, fun i h => ?_⟩
      · rw [runJob_each_cons hskip]
        simp only [hkeys]
        rfl
      · cases i with
        | zero => rfl
        | succ i =>
            rw [List.take_succ_cons, runJob_each_cons hskip]
            exact hown i (Nat.lt_of_succ_lt_succ h)

/-- What records that are passed over leave is what the others leave. -/
theorem each_kept (hskip : o.skipFailed) (ht : t.transactional)
    (hsave : ∀ item, Job.Made t.database Call.IsStatement (save item)) {items : List Record}
    {keys : List (Option Value)} (h : Alike w w') (hw : w.Still)
    (hkeys : (w.runJob (each save t o items)).1 = .ok keys) :
    (w'.runJob (each save t o (kept items keys))).1 = .ok (keys.filter Option.isSome) ∧
      Alike (w.runJob (each save t o items)).2 (w'.runJob (each save t o (kept items keys))).2 := by
  induction items generalizing keys w w' with
  | nil =>
      cases hkeys
      exact ⟨rfl, h⟩
  | cons item rest ih =>
      have hatomic : Job.Made t.database Call.IsStatement
          (Job.atomicIf t.transactional t.database (save item)) := .atomicIf _ (hsave item)
      obtain ⟨hsame, halike⟩ := hatomic.blind h hw
      have hstill := still_runJob hw (Job.atomicIf t.transactional t.database (save item))
      rw [runJob_each_cons hskip] at hkeys ⊢
      obtain ⟨others, hothers, rfl⟩ := Outcome.map_eq_ok.mp hkeys
      cases hown : (w.runJob (Job.atomicIf t.transactional t.database (save item))).1 with
      | ok pk =>
          -- The record is kept, and its save does the same beside fewer records.
          have hkept : kept (item :: rest) ((Except.ok pk : Outcome Value).toOption :: others) =
              item :: kept rest others := rfl
          obtain ⟨hrest, hleft⟩ := ih halike hstill hothers
          rw [hkept, runJob_each_cons hskip, hsame, hown]
          simp only [hrest]
          exact ⟨rfl, hleft⟩
      | error f =>
          -- The record is passed over, and its transaction has left the stores as they were.
          have hkept : kept (item :: rest) ((Except.error f : Outcome Value).toOption :: others) =
              kept rest others := rfl
          have hleft : SameStores w (w.runJob (Job.atomicIf t.transactional t.database (save item))).2 := by
            rw [ht] at hown ⊢
            exact Job.atomic_error (hsave item).confined hown
          rw [hkept]
          exact ih ((hleft.twin hw).toAlike.symm.trans h) hstill hothers

/-! ## Relations one after another -/

/-- The relations of a written row with the jobs that write them: those given by keys, then those given by
objects. -/
def relationJobs (app : Application) (t : WriteTarget)
    (save : Schema → SaveOptions → Record → Record → Job Value) (s : Schema) (o : SaveOptions)
    (row : WrittenRow) : List (SchemaField × Job Unit) :=
  (row.parts.keys.map fun (f, v) => (f, match f.relationWrite with
    | some w => w.assign t.database row.pk (f.relationKeys v) row.created
    | none => return ())) ++
  row.parts.objects.map fun (f, v) => (f, objects app t save s o row.pk row.created f v)

/-- The names of the relations that are passed over when some are written one after another. -/
def passedOver (t : WriteTarget) (o : SaveOptions) : List (SchemaField × Job Unit) → World → List String
  | [], _ => []
  | (f, write) :: rest, w =>
    match w.runJob (Job.atomicIf (t.transactional && o.forgiveRelations.skipsAny) t.database write) with
    | (.ok _, w) => passedOver t o rest w
    | (.error e, w) => if o.forgiveRelations.allows e then f.name :: passedOver t o rest w else []

/-- The relations that have other names. -/
def without (names : List String) (jobs : List (SchemaField × Job Unit)) : List (SchemaField × Job Unit) :=
  jobs.filter fun e => !names.contains e.1.name

theorem relations_eq (app : Application) (t : WriteTarget)
    (save : Schema → SaveOptions → Record → Record → Job Value) (s : Schema) (o : SaveOptions)
    (row : WrittenRow) :
    relations app t save s o row =
      (relationJobs app t save s o row).forM fun e => relation t o e.1 e.2 := by
  simp only [relationJobs, List.forM_eq_forM, List.forM_append, List.forM_map]
  rfl

theorem passedOver_subset (t : WriteTarget) (o : SaveOptions) (jobs : List (SchemaField × Job Unit))
    (w : World) : passedOver t o jobs w ⊆ jobs.map (·.1.name) := by
  induction jobs generalizing w with
  | nil => exact List.Subset.refl _
  | cons e rest ih =>
      obtain ⟨f, write⟩ := e
      rw [passedOver, List.map_cons]
      split
      · exact List.subset_cons_of_subset _ (ih _)
      · split
        · exact List.cons_subset_cons _ (ih _)
        · exact List.nil_subset _

theorem skipsAny_of_allows {p : Forgiveness} {e : Failure} (h : p.allows e) : p.skipsAny := by
  cases p with
  | none => cases h
  | all => rfl
  | only kinds => cases kinds <;> first | rfl | cases h

theorem runJob_relation (t : WriteTarget) (o : SaveOptions) (f : SchemaField) (write : Job Unit) (w : World) :
    w.runJob (relation t o f write) =
      (match (w.runJob (Job.atomicIf (t.transactional && o.forgiveRelations.skipsAny) t.database write)).1 with
        | .ok () => .ok ()
        | .error e => if o.forgiveRelations.allows e then .ok () else .error (.relation f.name e),
      (w.runJob (Job.atomicIf (t.transactional && o.forgiveRelations.skipsAny) t.database write)).2) := by
  rw [relation, runJob_bind, runJob_attempt]
  cases (w.runJob (Job.atomicIf (t.transactional && o.forgiveRelations.skipsAny) t.database write)).1 with
  | ok _ => rfl
  | error e => cases he : o.forgiveRelations.allows e <;> simp only [he] <;> rfl

theorem without_cons_of_not_mem {names : List String} {f : SchemaField} {write : Job Unit}
    {rest : List (SchemaField × Job Unit)} (h : f.name ∉ names) :
    without names ((f, write) :: rest) = (f, write) :: without names rest := by
  refine List.filter_cons_of_pos ?_
  rwa [Bool.not_eq_true', List.contains_eq_mem, decide_eq_false_iff_not]

theorem without_cons_self {names : List String} {f : SchemaField} {write : Job Unit}
    {rest : List (SchemaField × Job Unit)} (h : f.name ∉ rest.map (·.1.name)) :
    without (f.name :: names) ((f, write) :: rest) = without names rest := by
  rw [without, List.filter_cons_of_neg (by simp)]
  refine List.filter_congr fun e he => ?_
  have hne : e.1.name ≠ f.name := fun heq => h (heq ▸ List.mem_map_of_mem he)
  simp [hne]

/-- A relation that is passed over succeeds, and its transaction has left the stores as they were. -/
theorem relation_of_allows (ht : t.transactional) {f : SchemaField} {write : Job Unit}
    (hmade : Job.Made t.database Call.IsStatement write) (hw : w.Still) {e : Failure}
    (hallows : o.forgiveRelations.allows e)
    (hr : (w.runJob (Job.atomicIf (t.transactional && o.forgiveRelations.skipsAny) t.database write)).1 = .error e) :
    (w.runJob (relation t o f write)).1 = .ok () ∧ Twin w (w.runJob (relation t o f write)).2 := by
  have hwanted : (t.transactional && o.forgiveRelations.skipsAny) = true := by
    rw [ht, skipsAny_of_allows hallows]
    rfl
  rw [runJob_relation, hr]
  refine ⟨if_pos hallows, ?_⟩
  rw [hwanted] at hr ⊢
  exact (Job.atomic_error hmade.confined hr).twin hw

/-- What relations that are passed over leave is what the others leave. -/
theorem relations_without (ht : t.transactional) {jobs : List (SchemaField × Job Unit)}
    (hjobs : ∀ e ∈ jobs, Job.Made t.database Call.IsStatement e.2)
    (hnames : (jobs.map (·.1.name)).Nodup) (h : Alike w w') (hw : w.Still) :
    (w'.runJob ((without (passedOver t o jobs w) jobs).forM fun e => relation t o e.1 e.2)).1 =
        (w.runJob (jobs.forM fun e => relation t o e.1 e.2)).1 ∧
      Alike (w.runJob (jobs.forM fun e => relation t o e.1 e.2)).2
        (w'.runJob ((without (passedOver t o jobs w) jobs).forM fun e => relation t o e.1 e.2)).2 := by
  induction jobs generalizing w w' with
  | nil => exact ⟨rfl, h⟩
  | cons e rest ih =>
      obtain ⟨f, write⟩ := e
      rw [List.map_cons, List.nodup_cons] at hnames
      have hmade := hjobs _ List.mem_cons_self
      have hrest : ∀ e ∈ rest, Job.Made t.database Call.IsStatement e.2 :=
        fun e he => hjobs e (List.mem_cons_of_mem _ he)
      have hrun := runJob_relation t o f write
      have hcons : ∀ {w : World} (others : List (SchemaField × Job Unit)),
          (w.runJob (relation t o f write)).1 = .ok () →
          w.runJob (((f, write) :: others).forM fun e => relation t o e.1 e.2) =
            (w.runJob (relation t o f write)).2.runJob (others.forM fun e => relation t o e.1 e.2) :=
        fun others hok => runJob_forM_ok (a := (f, write)) hok others
      obtain ⟨hsame, halike⟩ := (relation_made (t := t) o f hmade).blind h hw
      rw [passedOver]
      split
      · -- The relation is written, so it is none of those that are passed over behind it.
        rename_i w₁ hr
        have hw₁ : (w.runJob (relation t o f write)).2 = w₁ := by rw [hrun, hr]
        have hok : (w.runJob (relation t o f write)).1 = .ok () := by rw [hrun, hr]
        rw [without_cons_of_not_mem fun hmem => hnames.1 (passedOver_subset t o rest w₁ hmem), hcons _ hok,
          hcons _ (hsame.trans hok), hw₁]
        exact ih hrest hnames.2 (hw₁ ▸ halike) (hw₁ ▸ still_runJob hw _)
      · rename_i e w₁ hr
        have hw₁ : (w.runJob (relation t o f write)).2 = w₁ := by rw [hrun, hr]
        split
        · rename_i hallows
          obtain ⟨hok, htwin⟩ := relation_of_allows (f := f) ht hmade hw hallows (congrArg Prod.fst hr)
          rw [without_cons_self hnames.1, hcons _ hok, hw₁]
          rw [hw₁] at htwin
          exact ih hrest hnames.2 (htwin.toAlike.symm.trans h) (htwin.toAlike.still hw)
        · rename_i hrefused
          have herror : (w.runJob (relation t o f write)).1 = .error (.relation f.name e) := by
            rw [hrun, hr]
            exact if_neg hrefused
          have hstop : ∀ {w : World}, (w.runJob (relation t o f write)).1 = .error (.relation f.name e) →
              w.runJob (((f, write) :: rest).forM fun e => relation t o e.1 e.2) =
                (.error (.relation f.name e), (w.runJob (relation t o f write)).2) :=
            fun herror => runJob_forM_error (a := (f, write)) herror rest
          have hkeep : without [] ((f, write) :: rest) = (f, write) :: rest := by
            simp [without]
          rw [hkeep, hstop herror, hstop (hsame.trans herror)]
          exact ⟨rfl, halike⟩

end Save

/-! ## A record without some relations -/

/-- A written row without the relations of some names. -/
def WrittenRow.without (names : List String) (row : WrittenRow) : WrittenRow :=
  { row with parts := row.parts.without names }

namespace Save

variable {app : Application} {t : WriteTarget} {o : SaveOptions} {s : Schema} {data rest extra : Record}
  {names : List String} {w w' : World}

section Without

variable (hsplit : ∀ op, SaveParts.split s op rest = (SaveParts.split s op data).without names)
include hsplit

theorem createRow_without (pk : Option Value) :
    createRow t s pk rest extra = WrittenRow.without names <$> createRow t s pk data extra := by
  simp only [createRow, hsplit, map_bind, map_pure]
  rfl

theorem extendParent_without (pk : Value) :
    extendParent app t s pk rest extra = WrittenRow.without names <$> extendParent app t s pk data extra := by
  simp only [extendParent, hsplit, map_bind, map_pure, apply_ite (WrittenRow.without names <$> ·)]
  rfl

theorem writeRow_without (hkey : s.keyOf? rest = s.keyOf? data) :
    writeRow app t s o rest extra = WrittenRow.without names <$> writeRow app t s o data extra := by
  simp only [writeRow, hkey]
  split
  · simp only [createRow_without hsplit, map_bind, apply_ite (WrittenRow.without names <$> ·)]
  · simp only [createRow_without hsplit, extendParent_without hsplit, hsplit, map_bind, map_pure,
      apply_ite (WrittenRow.without names <$> ·)]
    rfl

end Without

/-! ## Levels to spare -/

/-- The levels that a save has beyond the depth of its data do not matter. -/
theorem rowWithin_levels {levels levels' : Nat} (h : Value.entriesDepth data < levels)
    (h' : Value.entriesDepth data < levels') (s : Schema) (o : SaveOptions) (extra : Record) :
    Job.Same (rowWithin app t levels s o data extra) (rowWithin app t levels' s o data extra) := by
  induction levels generalizing levels' s o data extra with
  | zero => exact absurd h (Nat.not_lt_zero _)
  | succ n ih =>
      obtain ⟨m, rfl⟩ : ∃ m, levels' = m + 1 := ⟨levels' - 1, by omega⟩
      refine .bindOf .rfl (returns_fromData o s data extra) fun row hrow => .ite (.bind ?_ fun _ => .rfl) .rfl
      refine .bind .rfl fun _ => .forM fun e he => ?_
      obtain ⟨_, _, name, hentry, _⟩ := hrow.objects e.1 e.2 he
      have hdepth := depth_le_entriesDepth hentry
      refine .bind (.attempt (.atomicIf ?_ _ _)) fun _ => .rfl
      refine .bind .rfl fun nested => ?_
      split
      · refine .bind (.mapM fun item hitem => ?_) fun _ => .rfl
        have hitem := entriesDepth_lt_of_mem_objects hitem
        have hsame := fun (s : Schema) (o : SaveOptions) (extra : Record) =>
          ih (show Value.entriesDepth item < n by omega) (show Value.entriesDepth item < m by omega) s o extra
        exact .ite (.bind (.attempt (.atomicIf (hsame _ _ _) _ _)) fun _ => .rfl) (.bind (hsame _ _ _) fun _ => .rfl)
      · exact .rfl

/-! ## One record -/

/-- Jobs that do the same do so too where another value is returned. -/
theorem alike_bind_pure {α β : Type} {j j' : Job α} (hsame : (w'.runJob j').1 = (w.runJob j).1)
    (h : Alike (w.runJob j).2 (w'.runJob j').2) (b : β) :
    (w'.runJob (j' >>= fun _ => pure b)).1 = (w.runJob (j >>= fun _ => pure b)).1 ∧
      Alike (w.runJob (j >>= fun _ => pure b)).2 (w'.runJob (j' >>= fun _ => pure b)).2 := by
  cases hr : (w.runJob j).1 with
  | error f =>
      rw [runJob_bind_error hr, runJob_bind_error (hsame.trans hr)]
      exact ⟨rfl, h⟩
  | ok a =>
      rw [runJob_bind_ok hr, runJob_bind_ok (hsame.trans hr)]
      exact ⟨rfl, h⟩

/-- The names of the relations of a record that its save passes over, when it runs in a world. -/
def skipped (app : Application) (t : WriteTarget) (s : Schema) (o : SaveOptions) (data : Record) (w : World) :
    List String :=
  match w.runJob (writeRow app t s o data []) with
  | (.ok row, w) =>
    if o.withRelations then
      passedOver t o (relationJobs app t (rowWithin app t (Value.entriesDepth data)) s o row) w
    else []
  | (.error _, _) => []

theorem relationJobs_made {levels : Nat} {row : WrittenRow} (hrow : FromData s data row.parts) :
    ∀ e ∈ relationJobs app t (rowWithin app t levels) s o row, Job.Made t.database Call.IsStatement e.2 := by
  have hentry : ∀ {name v f}, (name, v) ∈ data → s.field? name = some f →
      EntryMade Call.IsStatement app t levels s o f v :=
    entryMade_of_allowed (rowWithin_made levels) (allowed_isStatement app s data)
  intro e he
  rcases List.mem_append.mp he with he | he
  · obtain ⟨⟨f, v⟩, hmem, rfl⟩ := List.mem_map.mp he
    obtain ⟨name, hdata, hfield⟩ := hrow.keys f v hmem
    simp only
    split
    · rename_i w hw
      exact (hentry hdata hfield).keys w hw _ _
    · exact .pure _
  · obtain ⟨⟨f, v⟩, hmem, rfl⟩ := List.mem_map.mp he
    obtain ⟨_, hholds, name, hdata, hfield⟩ := hrow.objects f v hmem
    exact (hentry hdata hfield).objects hholds _ _

theorem names_relationJobs (save : Schema → SaveOptions → Record → Record → Job Value) (row : WrittenRow) :
    (relationJobs app t save s o row).map (·.1.name) =
      (row.parts.keys ++ row.parts.objects).map (·.1.name) := by
  simp only [relationJobs, List.map_append, List.map_map]
  rfl

theorem relationJobs_without (save : Schema → SaveOptions → Record → Record → Job Value) (row : WrittenRow) :
    relationJobs app t save s o (row.without names) = without names (relationJobs app t save s o row) := by
  simp only [relationJobs, without, List.filter_append, List.filter_map]
  rfl

theorem entriesDepth_filter_le (p : String × Value → Bool) (data : Record) :
    Value.entriesDepth (data.filter p) ≤ Value.entriesDepth data := by
  induction data with
  | nil => exact Nat.le_refl _
  | cons e rest ih =>
      obtain ⟨name, v⟩ := e
      rw [Value.entriesDepth, List.filter_cons]
      split
      · rw [Value.entriesDepth]
        omega
      · omega

theorem writeRow_isStatement (app : Application) (t : WriteTarget) (s : Schema) (o : SaveOptions)
    (data extra : Record) : Job.Made t.database Call.IsStatement (writeRow app t s o data extra) :=
  have hallowed := allowed_isStatement app s data
  writeRow_made hallowed.looks (hallowed.writes _ .row) o data extra

/-- What is passed over is a relation. -/
theorem isRelation_of_skipped
    (hnamed : ∀ e ∈ data, ∀ f, s.field? e.1 = some f → f.isPrimaryKey ∨ f.name = e.1) :
    ∀ name ∈ skipped app t s o data w, ∀ f, s.field? name = some f →
      f.isPrimaryKey ∨ f.relationWrite.isSome := by
  intro name hname f hf
  unfold skipped at hname
  split at hname
  · rename_i written w₁ hr
    split at hname
    · obtain ⟨op, hparts⟩ := returns_split o s data [] w written (by rw [hr])
      have hmem := passedOver_subset t o _ w₁ hname
      rw [names_relationJobs, hparts] at hmem
      obtain ⟨⟨g, v⟩, hg, rfl⟩ := List.mem_map.mp hmem
      have hfrom := fromData_split s op data
      obtain ⟨hkey, hwrite⟩ := hfrom.relations g v (List.mem_append.mp hg)
      obtain ⟨entry, hdata, hfield⟩ : ∃ entry, (entry, v) ∈ data ∧ s.field? entry = some g := by
        rcases List.mem_append.mp hg with hg | hg
        · exact hfrom.keys g v hg
        · exact (hfrom.objects g v hg).2.2
      obtain rfl : g.name = entry := by
        rcases hnamed _ hdata g hfield with hpk | hsame
        · rw [hkey] at hpk
          cases hpk
        · exact hsame
      obtain rfl : g = f := Option.some.inj (hfield.symm.trans hf)
      exact .inr hwrite
    · cases hname
  · cases hname

/-- The relations of a written row are written as they are without those that are passed over. -/
theorem relations_of_split (app : Application) (o : SaveOptions) (ht : t.transactional)
    (hnamed : ∀ e ∈ data, ∀ f, s.field? e.1 = some f → f.isPrimaryKey ∨ f.name = e.1)
    (hnames : (data.map Prod.fst).Nodup) {row : WrittenRow} {op : Operation}
    (hparts : row.parts = SaveParts.split s op data) (levels : Nat) (h : Alike w w') (hw : w.Still) :
    let save := rowWithin app t levels
    let names := passedOver t o (relationJobs app t save s o row) w
    (w'.runJob (relations app t save s o (row.without names))).1 = (w.runJob (relations app t save s o row)).1 ∧
      Alike (w.runJob (relations app t save s o row)).2
        (w'.runJob (relations app t save s o (row.without names))).2 := by
  intro save names
  rw [relations_eq, relations_eq, relationJobs_without]
  have hmade : ∀ e ∈ relationJobs app t save s o row, Job.Made t.database Call.IsStatement e.2 :=
    relationJobs_made (hparts ▸ fromData_split s op data)
  have hnodup : ((relationJobs app t save s o row).map (·.1.name)).Nodup := by
    rw [names_relationJobs, hparts]
    exact nodup_names_split hnamed hnames op
  exact relations_without ht hmade hnodup h hw

/-- A save of a record does what it does without the relations that it passes over, unless the record has
its primary key from one of them. -/
theorem row_without (ht : t.transactional)
    (hnamed : ∀ e ∈ data, ∀ f, s.field? e.1 = some f → f.isPrimaryKey ∨ f.name = e.1)
    (hnames : (data.map Prod.fst).Nodup) (h : Alike w w') (hw : w.Still)
    (hkey : s.keyOf? (data.filter fun e => !(skipped app t s o data w).contains e.1) = s.keyOf? data) :
    let rest := data.filter fun e => !(skipped app t s o data w).contains e.1
    (w'.runJob (row app t s o rest)).1 = (w.runJob (row app t s o data)).1 ∧
      Alike (w.runJob (row app t s o data)).2 (w'.runJob (row app t s o rest)).2 := by
  intro rest
  have hsplit : ∀ op, SaveParts.split s op rest = (SaveParts.split s op data).without (skipped app t s o data w) :=
    fun op => SaveParts.split_without hnamed (isRelation_of_skipped hnamed)
  -- The levels that are enough for the whole record are enough for less of it.
  have hlevels : Job.Same (row app t s o rest) (rowWithin app t (Value.entriesDepth data + 1) s o rest []) :=
    rowWithin_levels (Nat.lt_succ_self _) (Nat.lt_succ_of_le (entriesDepth_filter_le _ data)) s o []
  rw [hlevels w', row, rowWithin, rowWithin, writeRow_without hsplit hkey, bind_map_left]
  obtain ⟨hsame, halike⟩ := (writeRow_isStatement app t s o data []).blind h hw
  cases hr : (w.runJob (writeRow app t s o data [])).1 with
  | error f =>
      rw [runJob_bind_error hr, runJob_bind_error (hsame.trans hr)]
      exact ⟨rfl, halike⟩
  | ok written =>
      rw [runJob_bind_ok hr, runJob_bind_ok (hsame.trans hr)]
      have hskipped : skipped app t s o data w = if o.withRelations then
          passedOver t o (relationJobs app t (rowWithin app t (Value.entriesDepth data)) s o written)
            (w.runJob (writeRow app t s o data [])).2 else [] := by
        rw [skipped, show w.runJob (writeRow app t s o data []) =
          (.ok written, (w.runJob (writeRow app t s o data [])).2) from Prod.ext hr rfl]
      have hwritten : (written.without (skipped app t s o data w)).pk = written.pk := rfl
      obtain ⟨op, hparts⟩ := returns_split o s data [] w written hr
      by_cases hrel : o.withRelations
      · rw [if_pos hrel] at hskipped
        obtain ⟨hresult, hleft⟩ := relations_of_split app o ht hnamed hnames hparts
          (Value.entriesDepth data) halike (still_runJob hw _)
        rw [← hskipped] at hresult hleft
        simp only [hrel, if_true, hwritten]
        exact alike_bind_pure hresult hleft _
      · simp only [hrel, Bool.false_eq_true, if_false]
        exact ⟨rfl, halike⟩

end Save

/-! ## Whole saves -/

namespace Schema

/-- A name stands for the primary key or for a field of that name. -/
theorem name_of_field? {reg : Registry} {s : Schema} (hkeys : reg.KeysFound) (hs : s.Declared reg)
    {name : String} {f : SchemaField} (h : s.field? name = some f) : f.isPrimaryKey ∨ f.name = name := by
  obtain ⟨hfields, g, hg, hpk⟩ := hs.fieldsDeclared hkeys
  have hmem := mem_of_lookup h
  by_cases hname : name = "pk"
  · rw [if_pos (beq_iff_eq.mpr hname)] at hmem
    have hsame := List.inj_on_of_nodup_map hfields.nodup hmem hg rfl
    cases hsame
    exact .inl hpk
  · rw [if_neg (by simpa using hname)] at hmem
    exact .inr (hfields.declared _ hmem).name

end Schema

namespace Application

/-- The names of the relations of a record that its save in a transaction passes over. -/
def skipped (app : Application) (t : WriteTarget) (s : Schema) (data : Record) (o : SaveOptions) (w : World) :
    List String :=
  Save.skipped app t s o data (w.perform t.database .begin).2

theorem mem_names_of_target {w : World} {ctx : Context} {o : SaveOptions} {t : WriteTarget}
    (h : WriteTarget.of w.connections ctx o = .ok t) : t.database ∈ w.databases.map Prod.fst := by
  have hresolve : ∀ {name : Option String} {database : String},
      w.connections.resolve name = .ok database → database ∈ w.databases.map Prod.fst := by
    intro name database hname
    unfold Connections.resolve at hname
    simp only at hname
    split at hname
    · rename_i hmem
      cases hname
      exact List.contains_iff_mem.mp hmem
    · cases hname
  unfold WriteTarget.of at h
  split at h
  all_goals
    obtain ⟨database, hdatabase, h⟩ := Outcome.bind_eq_ok.mp h
    cases h
    exact hresolve hdatabase

section Transaction

variable {app : Application} {s : Schema} {ctx : Context} {o : SaveOptions} {t : WriteTarget} {w : World}
  (ho : o.check = .ok ()) (ht : WriteTarget.of app.connections ctx o = .ok t) (hwish : o.transaction ≠ .none)

include ho ht hwish

theorem save_eq (data : Record) :
    app.save s data ctx o = Save.mapped ctx (Job.atomic t.database (Save.row app t s o data)) := by
  rw [save, ho, ht]
  show Save.mapped ctx (Job.atomicIf t.transactional t.database _) = _
  rw [WriteTarget.transactional_of hwish ht]
  rfl

theorem saveAll_eq (data : List Record) :
    app.saveAll s data ctx o =
      Save.mapped ctx (Job.atomic t.database (Save.each (Save.row app t s o) t o data)) := by
  rw [saveAll, ho, ht]
  show Save.mapped ctx (Job.atomicIf t.transactional t.database _) = _
  rw [WriteTarget.transactional_of hwish ht]
  rfl

end Transaction

section Skips

variable {ctx : Context} {o : SaveOptions} {t : WriteTarget} {w : World} (hw : w.Still) (ho : o.check = .ok ())
  (ht : WriteTarget.of w.connections ctx o = .ok t) (hwish : o.transaction ≠ .none) (cat : Catalog) (s : Schema)

include ho ht hwish

/-- A save of many records that passes over what fails commits what its transaction did. -/
theorem runJob_saveAll (hskip : o.skipFailed) (items : List Record) :
    ∃ keys, ((w.perform t.database .begin).2.runJob
        (Save.each (Save.row (w.application cat) t s o) t o items)).1 = .ok keys ∧
      w.runJob ((w.application cat).saveAll s items ctx o) = (.ok keys, (((w.perform t.database .begin).2.runJob
        (Save.each (Save.row (w.application cat) t s o) t o items)).2.perform t.database .commit).2) := by
  obtain ⟨keys, hkeys, _⟩ :=
    Save.each_own hskip (Save.row (w.application cat) t s o) t items (w.perform t.database .begin).2
  have hconfined := (Save.each_isStatement (w.application cat) t s o items).confined
  refine ⟨keys, hkeys, ?_⟩
  rw [saveAll_eq ho ht hwish, Save.runJob_mapped, Job.runJob_atomic_ok hconfined (mem_names_of_target ht) hkeys]

theorem saveAll_sameSavepoints (items : List Record) :
    SameSavepoints w (w.runJob ((w.application cat).saveAll s items ctx o)).2 := by
  rw [saveAll_eq ho ht hwish, Save.runJob_mapped]
  exact (Job.atomic_confined (Save.each_isStatement (w.application cat) t s o items).confined w).toSameSavepoints

include hw

/-- A save of many records yields for each the key that its own save has after those before it, or none where
that fails; the stores and the keys are those that the other records alone have. -/
theorem saveAll_skips (hskip : o.skipFailed) (data : List Record) :
    let app := w.application cat
    ∃ keys, (w.runJob (app.saveAll s data ctx o)).1 = .ok keys ∧
      keys.length = data.length ∧
      (∀ i (h : i < data.length), keys[i]? = some ((w.runJob (app.saveAll s (data.take i) ctx o)).2.runJob
        (app.save s data[i] ctx o)).1.toOption) ∧
      (w.runJob (app.saveAll s (Save.kept data keys) ctx o)).1 = .ok (keys.filter Option.isSome) ∧
      SameStores (w.runJob (app.saveAll s data ctx o)).2
        (w.runJob (app.saveAll s (Save.kept data keys) ctx o)).2 := by
  intro app
  have htrans := WriteTarget.transactional_of hwish ht
  have hsave := Save.row_isStatement app t s o
  have hstill := still_perform hw t.database .begin
  obtain ⟨keys, hkeys, hlength, hown⟩ :=
    Save.each_own hskip (Save.row app t s o) t data (w.perform t.database .begin).2
  obtain ⟨hkept, halike⟩ :=
    Save.each_kept hskip htrans hsave (.refl (w.perform t.database .begin).2) hstill hkeys
  obtain ⟨_, hkeys', hall⟩ := runJob_saveAll ho ht hwish cat s hskip data
  obtain rfl := Except.ok.inj (hkeys.symm.trans hkeys')
  obtain ⟨_, hothers', hothers⟩ := runJob_saveAll ho ht hwish cat s hskip (Save.kept data keys)
  obtain rfl := Except.ok.inj (hkept.symm.trans hothers')
  refine ⟨keys, by rw [hall], hlength, fun i h => ?_, by rw [hothers], ?_⟩
  · -- The savepoints before a record make no difference to its own save.
    obtain ⟨_, _, hbefore⟩ := runJob_saveAll ho ht hwish cat s hskip (data.take i)
    have hbegun := still_runJob hstill (Save.each (Save.row app t s o) t o (data.take i))
    obtain ⟨hsame, _⟩ := (Job.Made.atomic (hsave data[i])).blind (Job.alike_commit hbegun t.database) hbegun
    rw [hown i h, hbefore, htrans, save_eq ho ht hwish, Save.toOption_mapped, hsame]
    rfl
  · have hcommitted : Alike (w.runJob (app.saveAll s data ctx o)).2
        (w.runJob (app.saveAll s (Save.kept data keys) ctx o)).2 := by
      rw [hall, hothers]
      exact (Job.alike_commit (still_runJob hstill _) _).symm.trans
        (halike.trans (Job.alike_commit (still_runJob hstill _) _))
    exact hcommitted.sameStores (saveAll_sameSavepoints ho ht hwish cat s _) (saveAll_sameSavepoints ho ht hwish cat s _)

/-- A save of one record does what it does without the relations that it passes over, unless the record has its
primary key from one of them. -/
theorem save_without (hkeys : w.registry.KeysFound) (hs : s.Declared w.registry) {data : Record}
    (hnames : (data.map Prod.fst).Nodup) :
    let app := w.application cat
    let rest := data.filter fun e => !(app.skipped t s data o w).contains e.1
    s.keyOf? rest = s.keyOf? data →
    (w.runJob (app.save s rest ctx o)).1 = (w.runJob (app.save s data ctx o)).1 ∧
      SameStores (w.runJob (app.save s data ctx o)).2 (w.runJob (app.save s rest ctx o)).2 := by
  intro app rest hkey
  have htrans := WriteTarget.transactional_of hwish ht
  have hsave := fun item => (Save.row_isStatement app t s o item).confined
  have hnamed : ∀ e ∈ data, ∀ f, s.field? e.1 = some f → f.isPrimaryKey ∨ f.name = e.1 :=
    fun _ _ f hf => Schema.name_of_field? hkeys hs hf
  have hbegun := Alike.refl (w.perform t.database .begin).2
  obtain ⟨hresult, halike⟩ :=
    Save.row_without htrans hnamed hnames hbegun (still_perform hw t.database .begin) hkey
  obtain ⟨hsame, hleft⟩ := Job.atomic_alike (hsave data) (hsave rest) (.refl w) hw hresult halike
  rw [save_eq ho ht hwish, save_eq ho ht hwish, Save.runJob_mapped, Save.runJob_mapped, hsame]
  exact ⟨rfl, hleft.sameStores (Job.atomic_confined (hsave data) w).toSameSavepoints
    (Job.atomic_confined (hsave rest) w).toSameSavepoints⟩

end Skips

/-- What is passed over by a save in a transaction leaves no trace. A save of many records yields for each
the key that its own save has after those before it, or none where that fails; the stores and the keys are
those that the other records alone have. A save of one record does what it does without the relations that
it passes over, unless the record has its primary key from one of them. -/
theorem save_skips {cat : Catalog} {w : World} {s : Schema} {ctx : Context} {o : SaveOptions} {t : WriteTarget}
    (hkeys : w.registry.KeysFound) (hs : s.Declared w.registry) (hw : w.Still) (ho : o.check = .ok ())
    (ht : WriteTarget.of w.connections ctx o = .ok t) (hwish : o.transaction ≠ .none) :
    let app := w.application cat
    (o.skipFailed → ∀ data, ∃ keys, (w.runJob (app.saveAll s data ctx o)).1 = .ok keys ∧
      keys.length = data.length ∧
      (∀ i (h : i < data.length), keys[i]? = some ((w.runJob (app.saveAll s (data.take i) ctx o)).2.runJob
        (app.save s data[i] ctx o)).1.toOption) ∧
      (w.runJob (app.saveAll s (Save.kept data keys) ctx o)).1 = .ok (keys.filter Option.isSome) ∧
      SameStores (w.runJob (app.saveAll s data ctx o)).2
        (w.runJob (app.saveAll s (Save.kept data keys) ctx o)).2) ∧
    ∀ data, (data.map Prod.fst).Nodup →
      let rest := data.filter fun e => !(app.skipped t s data o w).contains e.1
      s.keyOf? rest = s.keyOf? data →
      (w.runJob (app.save s rest ctx o)).1 = (w.runJob (app.save s data ctx o)).1 ∧
        SameStores (w.runJob (app.save s data ctx o)).2 (w.runJob (app.save s rest ctx o)).2 := by
  intro app
  constructor
  · exact fun hskip data => saveAll_skips hw ho ht hwish cat s hskip data
  · exact fun data hnames => save_without hw ho ht hwish cat s hkeys hs hnames

end Application

/-! ## Authors with skipped tags -/

namespace TaggedAuthors

open Registry (built modelOf tableOf)

def decls : List ModelDecl :=
  [{ name := "tag", fields := [.autoKey "id"] },
    { name := "author"
      fields :=
      [.autoKey "id", .of "name" .char,
        .of "tags" (.manyToMany "tag" "tagging" "author" "tag" none)] },
    { name := "tagging"
      fields := [.autoKey "id", .of "author" (.foreignKey "author" none), .of "tag" (.foreignKey "tag" none)] }]

/-- No authors and no tags. -/
def world : World where
  registry := built decls
  databases := [("default", .empty)]
  main := "default"
  clock := default
  tick := 0

def author : Model := modelOf (built decls) "author"

/-- The schema of an author with fields for the name and for some more. -/
def schemaWith (fields : List FieldDecl) : Schema :=
  match Schema.build (built decls) {} "Author" author ({ name := "name" } :: fields) with
  | .ok s => s
  | .error _ => default

/-- The key under another name, and the tags under the name of the key. -/
def swapped : Schema := schemaWith [{ name := "key", source := .path "id" },
  { name := "id", source := .path "tags" }]

def plain : Schema := schemaWith [{ name := "tags" }]

def app : Application := world.application {}

/-- The options of a save in a transaction that passes over every failure. -/
def options : SaveOptions := { forgiveRelations := .all, skipFailed := true }

def target : WriteTarget := ⟨"default", true⟩

def named : Record := [("name", .text "Ann")]

/-- A save of an author with a tag that does not exist has the author's key from the tag. -/
theorem skipped_relation_is_key :
    app.skipped target swapped (named ++ [("id", .int 9)]) options world = ["id"] ∧
      (world.runJob (app.save swapped (named ++ [("id", .int 9)]) {} options)).1.toOption = some (.int 9) ∧
      (world.runJob (app.save swapped named {} options)).1.toOption = some (.int 1) := by
  decide +kernel

theorem declared_plain : plain.Declared world.registry := by
  have hbuild : Schema.build (built decls) {} "Author" author [{ name := "name" }, { name := "tags" }] =
      .ok plain := by rfl
  have hauthor : author ∈ (built decls).models := .tail _ (.head _)
  exact .built hauthor hbuild

theorem keysFound : world.registry.KeysFound := by
  have hbuild : Registry.build decls = .ok (built decls) := by rfl
  exact Registry.keysFound_of_build hbuild (by decide)

def unnamed : Record := [("name", .null)]

/-- An author is saved without a tag that does not exist, and after another one that is refused. -/
theorem save_skips_tag :
    (app.skipped target plain (named ++ [("tags", .list [.int 9])]) options world = ["tags"] ∧
      (world.runJob (app.save plain named {} options)).1 =
        (world.runJob (app.save plain (named ++ [("tags", .list [.int 9])]) {} options)).1) ∧
    (world.runJob (app.saveAll plain [unnamed, named] {} options)).1.toOption = some [none, some (.int 1)] ∧
      (world.runJob (app.saveAll plain [named] {} options)).1 = .ok [some (.int 1)] ∧
      SameStores (world.runJob (app.saveAll plain [unnamed, named] {} options)).2
        (world.runJob (app.saveAll plain [named] {} options)).2 := by
  obtain ⟨hall, hone⟩ := @Application.save_skips {} world plain {} options target keysFound declared_plain rfl rfl
    rfl (by decide)
  have hskipped : app.skipped target plain (named ++ [("tags", .list [.int 9])]) options world = ["tags"] := by
    decide +kernel
  have hsaved := hone (named ++ [("tags", .list [.int 9])]) (by decide)
  rw [show world.application {} = app from rfl, hskipped] at hsaved
  have hfirst : (world.runJob (app.saveAll plain [unnamed, named] {} options)).1.toOption =
      some [none, some (.int 1)] := by
    decide +kernel
  obtain ⟨keys, hkeys, _, _, hothers, hleft⟩ := hall rfl [unnamed, named]
  obtain rfl : keys = [none, some (.int 1)] := Option.some.inj ((congrArg Except.toOption hkeys).symm.trans hfirst)
  exact ⟨⟨hskipped, (hsaved rfl).1⟩, hfirst, hothers, hleft⟩

end TaggedAuthors

end RecordMapper
