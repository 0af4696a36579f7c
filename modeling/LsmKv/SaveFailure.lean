import LsmKv.EngineCompaction

/-!
# A manifest that cannot be saved

The manifest is edited in memory before it is saved. When the save fails, the edit stays: the
manifest and the readers part, and flushing again publishes a second table of the same rows.
-/

namespace LsmKv
open Sst (TableMeta)
open OrderedMap

/-- A job that ends in a manifest edit. -/
inductive Job where
  | flush (now : ℕ)
  | compaction (inputs : Option (List ℕ)) (now created : ℕ)

def Job.run (fault : Option SaveFault) : Job → Engine → Engine × Except Raised Unit
  | .flush now, e => ((e.flushOneAt fault now).1, (e.flushOneAt fault now).2.map (fun _ => ()))
  | .compaction inputs now created, e =>
    ((e.runCompactionAt fault inputs now created).1,
      (e.runCompactionAt fault inputs now created).2.map (fun _ => ()))

/-- What a failed job is to leave as it was. -/
structure Undisturbed (e e' : Engine) : Prop where
  manifest : e'.manifest = e.manifest
  readers : e'.readers = e.readers
  immutables : e'.immutables = e.immutables
  version : e'.version = e.version

/-- The manifest was edited, and nothing else the engine reads. -/
structure HalfApplied (e e' : Engine) : Prop where
  epoch : e'.manifest.epoch = e.manifest.epoch + 1
  readers : e'.readers = e.readers
  immutables : e'.immutables = e.immutables
  version : e'.version = e.version

theorem HalfApplied.not_undisturbed {e e' : Engine} (h : HalfApplied e e') :
    ¬Undisturbed e e' := by
  intro hsame
  have hepoch := h.epoch
  rw [hsame.manifest] at hepoch
  omega

section
variable {e : Engine} {f : SaveFault}

theorem exists_saveAt_some (f : SaveFault) (m : Manifest) (e : Engine) :
    ∃ x, e.saveAt (some f) m = ({ e with manifest := m }, .error x) := by
  rw [Engine.saveAt]
  split
  · exact ⟨_, rfl⟩
  · exact ⟨_, rfl⟩

/-! ## Flushing -/

theorem flushOneAt_failed {now : ℕ}
    (h : (e.flushOneAt (some f) now).2 = .error (.error f.error)) :
    ∃ target r, Flushes e target r ∧ (e.flushOneAt (some f) now).1 =
      { e.placeFile r.id target with manifest := e.manifest.addTable (r.toMeta now) } := by
  rcases flushOneAt_cases (some f) now e with ⟨-, heq⟩ | ⟨x, heq⟩ | ⟨target, r, hflushes, heq⟩
  · rw [heq] at h
    cases h
  · rw [heq] at h
    cases h
  refine ⟨target, r, hflushes, ?_⟩
  obtain ⟨x, hx⟩ := exists_saveAt_some f (e.manifest.addTable (r.toMeta now))
    (e.placeFile r.id target)
  rw [heq, Engine.publishFlushAt, hx]

theorem flushOneAt_ok {now : ℕ} (h : (e.flushOneAt none now).2 = .ok true) :
    ∃ target r, Flushes e target r ∧
      (e.flushOneAt none now).1.manifest = e.manifest.addTable (r.toMeta now) ∧
      (e.flushOneAt none now).1.readers = r.toMeta now :: e.readers ∧
      (e.flushOneAt none now).1.files = e.files.insert r.id target.map := by
  rcases flushOneAt_cases none now e with ⟨-, heq⟩ | ⟨x, heq⟩ | ⟨target, r, hflushes, heq⟩
  · rw [heq] at h
    cases h
  · rw [heq] at h
    cases h
  refine ⟨target, r, hflushes, ?_⟩
  rw [heq, Engine.publishFlushAt, Engine.saveAt] at h ⊢
  by_cases hdumps : (e.manifest.addTable (r.toMeta now)).dumps e.config.isUtf8 = true
  · simp only [if_pos hdumps]
    exact ⟨rfl, rfl, rfl⟩
  · simp only [if_neg hdumps] at h
    cases h

/-- Flushing again after a save that failed puts a second table of the same rows beside the
first one, and the readers know one of them. -/
structure PublishedTwice (e e' : Engine) : Prop where
  tables : ∃ target t₁ t₂, e.immutables.getLast? = some target ∧
    e'.manifest.tables = t₂ :: t₁ :: e.manifest.tables ∧ e'.readers = t₂ :: e.readers ∧
    t₁.id ≠ t₂.id ∧ e'.files.find? t₁.id = some target.map ∧
    e'.files.find? t₂.id = some target.map

theorem publishedTwice_of_retry {now later : ℕ}
    (h : (e.flushOneAt (some f) now).2 = .error (.error f.error))
    (hretry : ((e.flushOneAt (some f) now).1.flushOneAt none later).2 = .ok true) :
    PublishedTwice e ((e.flushOneAt (some f) now).1.flushOneAt none later).1 := by
  obtain ⟨target, r, hflushes, heq⟩ := flushOneAt_failed h
  rw [heq] at hretry ⊢
  obtain ⟨target', r', hflushes', hmanifest, hreaders, hfiles⟩ := flushOneAt_ok hretry
  obtain rfl : target = target' := Option.some.inj (hflushes.oldest.symm.trans hflushes'.oldest)
  have hid := hflushes.id
  have hid' := hflushes'.id
  have hne : r.id ≠ r'.id := by
    rw [hid', hid]
    show e.manifest.nextSstId ≠ max e.manifest.nextSstId (r.id + 1)
    omega
  refine ⟨target, r.toMeta now, r'.toMeta later, hflushes.oldest, ?_, hreaders, hne, ?_, ?_⟩
  · rw [hmanifest]
    rfl
  · rw [hfiles]
    show ((e.files.insert r.id target.map).insert r'.id target.map).find? r.id = _
    rw [find?_insert_of_ne _ _ hne.symm, find?_insert_self]
  · rw [hfiles]
    exact find?_insert_self _ _ _

/-! ## Compacting -/

theorem explicitInputs_error {live : List TableMeta} {ids : List ℕ} {x : Error}
    (h : Compaction.explicitInputs live ids = .error x) : x.code = .invalidArgument := by
  rw [Compaction.explicitInputs] at h
  split at h
  · rw [← Except.error.inj h]
    rfl
  split at h
  · rw [← Except.error.inj h]
    rfl
  split at h
  · cases h
  · rw [← Except.error.inj h]
    rfl

/-- An error that is not that of a save. -/
def NotSaving (x : Raised) : Prop := ∀ f : SaveFault, x ≠ .error f.error

theorem notSaving_of_code {x : Error} (h : x.code ≠ .ioFailure) : NotSaving (.error x) := by
  rintro f heq
  obtain rfl := Raised.error.inj heq
  cases f <;> exact h rfl

theorem scanTables_error {files : OrderedMap ℕ Rows} {ts : List TableMeta} {x : Raised}
    (h : Engine.scanTables files ts = .error x) : NotSaving x := by
  induction ts with
  | nil => cases h
  | cons t ts ih =>
    rw [Engine.scanTables] at h
    split at h
    · rw [← Except.error.inj h]
      rintro f heq
      cases f <;> simp [SaveFault.error] at heq
    · split at h
      · rename_i y hy
        exact ih (hy.trans h)
      · cases h

theorem chooseInputs_error {choice : Option (List ℕ)} {x : Raised}
    (h : e.chooseInputs choice = .error x) : NotSaving x := by
  rcases choice with _ | ids
  · cases h
  · rw [Engine.chooseInputs] at h
    rcases hids : Compaction.explicitInputs e.manifest.tables ids with y | ids'
    · rw [hids] at h
      obtain rfl := Except.error.inj h
      exact notSaving_of_code (by simp [explicitInputs_error hids])
    · rw [hids] at h
      cases h

theorem writeOutput_error {final : Memtable} {created : ℕ} {x : Raised}
    (h : e.writeOutput final created = .error x) : NotSaving x := by
  rw [Engine.writeOutput, Engine.writeSstable] at h
  split at h
  · cases h
  rcases hw : Sst.writeSstable e.manifest.nextSstId final (e.config.sst final.entries) with
    y | ⟨r, file⟩
  · rw [hw] at h
    obtain rfl := Except.error.inj h
    exact fun f => by simp
  · rw [hw] at h
    cases h

theorem writeOutput_ok {final : Memtable} {created : ℕ} {e' : Engine} {added}
    (h : e.writeOutput final created = .ok (e', added)) :
    (∃ files misindexed, e' = { e with files := files, misindexed := misindexed }) ∧
      ∀ t ∈ added, t.id = e.manifest.nextSstId := by
  rw [Engine.writeOutput] at h
  split at h
  · obtain ⟨rfl, rfl⟩ := Prod.mk.inj (Except.ok.inj h)
    exact ⟨⟨_, _, rfl⟩, by simp⟩
  · split at h
    · cases h
    rename_i e₁ r hwrite
    obtain ⟨rfl, rfl⟩ := Prod.mk.inj (Except.ok.inj h)
    obtain ⟨hfiles, T, hinfo, -, hid⟩ := writeSstable_eq hwrite created
    refine ⟨⟨_, _, hfiles⟩, fun t ht => ?_⟩
    obtain rfl := Option.some.inj ht
    rw [← hinfo]
    exact hid

theorem runCompactionAt_failed {choice : Option (List ℕ)} {now created : ℕ}
    (h : (e.runCompactionAt (some f) choice now created).2 = .error (.error f.error)) :
    ∃ ids added files misindexed, e.chooseInputs choice = .ok (some ids) ∧
      (∀ t ∈ added, t.id = e.manifest.nextSstId) ∧
      (e.runCompactionAt (some f) choice now created).1 = { e with
        files := files
        misindexed := misindexed
        manifest := e.manifest.applyCompaction e.config.sort ids added } := by
  rw [Engine.runCompactionAt] at h ⊢
  rcases hopen : e.ensureOpen with x | u
  · rw [hopen] at h
    have hx : NotSaving (.error x) := by
      rw [Engine.ensureOpen] at hopen
      split at hopen
      · exact notSaving_of_code (by simp [← Except.error.inj hopen])
      · cases hopen
    exact absurd (Except.error.inj h) (hx f)
  rcases hchoose : e.chooseInputs choice with x | _ | ids
  · rw [hopen, hchoose] at h
    exact absurd (Except.error.inj h) (chooseInputs_error hchoose f)
  · rw [hopen, hchoose] at h
    cases h
  simp only [hopen, hchoose] at h ⊢
  rcases hmerge : e.scanInputs ids now with x | ⟨final, merged, keys_in⟩
  · simp only [hmerge] at h
    have hx : NotSaving x := by
      rcases scanInputs_error hmerge with hmerge | rfl
      · rw [Engine.mergeInputs] at hmerge
        split at hmerge
        · rename_i y hy
          rw [← Except.error.inj hmerge]
          exact scanTables_error hy
        · cases hmerge
      · exact notSaving_of_code (by decide)
    exact absurd (Except.error.inj h) (hx f)
  simp only [hmerge] at h ⊢
  rcases hwrite : e.writeOutput final created with x | ⟨e₁, added⟩
  · simp only [hwrite] at h
    exact absurd (Except.error.inj h) (writeOutput_error hwrite f)
  simp only [hwrite] at h ⊢
  obtain ⟨⟨files, misindexed, rfl⟩, hadded⟩ := writeOutput_ok hwrite
  obtain ⟨x, hx⟩ := exists_saveAt_some f (e.manifest.applyCompaction e.config.sort ids added)
    { e with files := files, misindexed := misindexed }
  refine ⟨ids, added, files, misindexed, rfl, hadded, ?_⟩
  rw [Engine.publishCompactionAt]
  simp only [hx]

/-- The inputs are off the manifest's list and still on the readers'. -/
theorem applyCompaction_ne {sort : TableSort} {ids : List ℕ} {added : Option TableMeta}
    {m : Manifest} (hfresh : ∀ t ∈ m.tables, t.id < m.nextSstId)
    (hids : Compaction.Window m.tables ids) (hadded : ∀ t ∈ added, t.id = m.nextSstId) :
    (m.applyCompaction sort ids added).tables ≠ m.tables := by
  obtain ⟨front, inputs, back, hsplit, rfl, hne⟩ := hids
  obtain ⟨t, ht⟩ := List.exists_mem_of_ne_nil inputs hne
  have hlisted : t ∈ m.tables := by
    rw [hsplit]
    exact List.mem_append_right _ (List.mem_append_left _ ht)
  intro hsame
  rw [← hsame, Manifest.applyCompaction, TableSort.mem_run, List.mem_append,
    List.mem_filter] at hlisted
  rcases hlisted with ⟨hmem, hout⟩ | hmem
  · exact (of_decide_eq_true hout) (List.mem_map_of_mem ht)
  · have hlt := hfresh t (by rw [hsplit]; exact List.mem_append_right _ (List.mem_append_left _ ht))
    have := hadded t (Option.mem_toList.mp hmem)
    omega

/-! ## Both jobs -/

theorem Job.failed {j : Job} (h : (j.run (some f) e).2 = .error (.error f.error)) :
    HalfApplied e (j.run (some f) e).1 ∧
      ((∀ t ∈ e.manifest.tables, t.id < e.manifest.nextSstId) →
        (j.run (some f) e).1.manifest.tables ≠ e.manifest.tables) := by
  have hraised : ∀ {α : Type} {x : Except Raised α},
      x.map (fun _ => ()) = .error (.error f.error) → x = .error (.error f.error) := by
    rintro α (x | a) hx
    · rw [Except.error.inj hx]
    · cases hx
  cases j with
  | flush now =>
    obtain ⟨target, r, -, heq⟩ := flushOneAt_failed (hraised h)
    rw [Job.run, heq]
    refine ⟨⟨rfl, rfl, rfl, rfl⟩, fun _ hsame => ?_⟩
    have := congrArg List.length hsame
    simp [Manifest.addTable] at this
  | compaction inputs now created =>
    obtain ⟨ids, added, files, misindexed, hids, hadded, heq⟩ := runCompactionAt_failed (hraised h)
    rw [Job.run, heq]
    exact ⟨⟨rfl, rfl, rfl, rfl⟩,
      fun hfresh => applyCompaction_ne hfresh (window_of_chooseInputs hids) hadded⟩

end

/-- Whatever the state and wherever the save fails, the manifest in memory is no longer what it
was, in its counter and in its list, while readers, immutables and version are; and a flush
that is retried publishes its rows twice. -/
theorem not_undisturbed_of_saveFault (f : SaveFault) (e : Engine) :
    (∀ j : Job, (j.run (some f) e).2 = .error (.error f.error) →
      ¬Undisturbed e (j.run (some f) e).1 ∧ HalfApplied e (j.run (some f) e).1 ∧
        ((∀ t ∈ e.manifest.tables, t.id < e.manifest.nextSstId) →
          e.readers = e.manifest.tables →
          (j.run (some f) e).1.readers ≠ (j.run (some f) e).1.manifest.tables)) ∧
      ∀ now later, (e.flushOneAt (some f) now).2 = .error (.error f.error) →
        ((e.flushOneAt (some f) now).1.flushOneAt none later).2 = .ok true →
        PublishedTwice e ((e.flushOneAt (some f) now).1.flushOneAt none later).1 := by
  refine ⟨fun j hj => ?_, fun now later h hretry => publishedTwice_of_retry h hretry⟩
  obtain ⟨hhalf, htables⟩ := Job.failed hj
  refine ⟨hhalf.not_undisturbed, hhalf, fun hfresh hnamed hsame => htables hfresh ?_⟩
  rw [← hsame, hhalf.readers, hnamed]

/-- A store just opened on an empty directory, after one write that filled its memtable. -/
def filledEngine : Engine := (((Engine.loaded (Config.small 1 4 1000) {}).recover).put [97] [1]).1

theorem not_undisturbed_filledEngine :
    Engine.open (Config.small 1 4 1000) {} =
        .ok (Engine.loaded (Config.small 1 4 1000) {}).recover ∧
      (filledEngine.flushOneAt (some .rename) 5).2 = .error (.error SaveFault.rename.error) ∧
      ¬Undisturbed filledEngine (filledEngine.flushOneAt (some .rename) 5).1 ∧
      ((filledEngine.flushOneAt (some .rename) 5).1.flushOneAt none 6).2 = .ok true ∧
      ((filledEngine.flushOneAt (some .rename) 5).1.flushOneAt none 6).1.manifest.tables.length = 2
      := by
  refine ⟨rfl, by decide +kernel, fun h => ?_, by decide +kernel, by decide +kernel⟩
  have hepoch : (filledEngine.flushOneAt (some .rename) 5).1.manifest.epoch = 1 := by
    decide +kernel
  rw [h.manifest] at hepoch
  exact absurd hepoch (by decide +kernel)

theorem saveFault_filledEngine :
    ¬Undisturbed filledEngine ((Job.flush 5).run (some .rename) filledEngine).1 ∧
      HalfApplied filledEngine ((Job.flush 5).run (some .rename) filledEngine).1 ∧
      ((Job.flush 5).run (some .rename) filledEngine).1.readers ≠
        ((Job.flush 5).run (some .rename) filledEngine).1.manifest.tables ∧
      PublishedTwice filledEngine
        ((filledEngine.flushOneAt (some .rename) 5).1.flushOneAt none 6).1 := by
  obtain ⟨hjob, hretry⟩ := not_undisturbed_of_saveFault .rename filledEngine
  obtain ⟨hnot, hhalf, hnamed⟩ := hjob (.flush 5) (by decide +kernel)
  exact ⟨hnot, hhalf, hnamed (by decide +kernel) (by decide +kernel),
    hretry 5 6 (by decide +kernel) (by decide +kernel)⟩

end LsmKv
