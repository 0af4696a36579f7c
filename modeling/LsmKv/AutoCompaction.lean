import LsmKv.Picker
import LsmKv.SaveFailure

/-!
# Automatic compaction

The loop of `maybe_auto_compact` ends because a job takes out more tables than it adds, and it
does not end early: the trigger stops it, or a want of tables to pick from.
-/

namespace LsmKv
open Sst (TableMeta)
open Compaction

section
variable {e e' : Engine} {now created : ℕ}

/-! ## One job -/

/-- A window of two tables or more makes room for one. -/
theorem length_applyCompaction_lt (sort : TableSort) {m : Manifest} {k : ℕ} (hk : 2 ≤ k)
    {w : List TableMeta} (hw : w ∈ windows k m.tables) (added : Option TableMeta) :
    (m.applyCompaction sort (w.map (·.id)) added).tables.length < m.tables.length := by
  obtain ⟨hlen, front, back, hsplit⟩ := mem_windows hw
  have hinputs : w.filter (fun t => t.id ∉ w.map (·.id)) = [] :=
    List.filter_eq_nil_iff.mpr (fun t ht => by simpa using ⟨t, ht, rfl⟩)
  have hfront := List.length_filter_le (fun t : TableMeta => decide (t.id ∉ w.map (·.id))) front
  have hback := List.length_filter_le (fun t : TableMeta => decide (t.id ∉ w.map (·.id))) back
  have hadded : added.toList.length ≤ 1 := by cases added <;> simp
  have hcount : m.tables.length = front.length + (w.length + back.length) := by
    rw [hsplit, List.length_append, List.length_append]
  rw [Manifest.applyCompaction, (sort.perm _).length_eq, List.length_append]
  conv_lhs => rw [hsplit]
  rw [List.filter_append, List.filter_append, hinputs, List.length_append, List.nil_append]
  omega

theorem deleteInputs_eq (rs : List TableMeta) (e : Engine) :
    ∃ files, rs.foldl (Engine.deleteInput []) e = { e with files := files } := by
  induction rs generalizing e with
  | nil => exact ⟨_, rfl⟩
  | cons r rs ih =>
    obtain ⟨files, heq⟩ := deleteInput_eq [] e r
    obtain ⟨files', heq'⟩ := ih (Engine.deleteInput [] e r)
    exact ⟨files', by rw [List.foldl_cons, heq', heq]⟩

theorem publishCompactionAt_config (fault : Option SaveFault) (ids : List ℕ)
    (added : Option TableMeta) (e : Engine) :
    (e.publishCompactionAt fault ids added).1.config = e.config := by
  obtain ⟨stored, readers, version, heq⟩ := publishCompactionAt_eq fault ids added e
  rw [heq]

/-- A round that finds nothing to do, or runs a job. -/
theorem runCompaction_ok {job : Option CompactionJobResult}
    (h : e.runCompaction none now created = (e', .ok job)) :
    (job = none ∧ e' = e ∧ e.manifest.tables.length < max 2 e.config.sizeTieredFanIn) ∨
      ((∃ r, job = some r) ∧ e'.config = e.config ∧
        e'.manifest.tables.length < e.manifest.tables.length) := by
  rw [Engine.runCompaction, Engine.runCompactionAt] at h
  rcases hopen : e.ensureOpen with x | u
  · rw [hopen] at h
    cases h
  rcases hpick : pickCompaction e.config.sizeTieredFanIn e.config.withinRatio e.manifest.tables
    with _ | p
  · simp only [hopen, Engine.chooseInputs, hpick, Option.map_none] at h
    obtain ⟨rfl, hjob⟩ := Prod.mk.inj h
    exact .inl ⟨(Except.ok.inj hjob).symm, rfl, pickCompaction_eq_none.mp hpick⟩
  simp only [hopen, Engine.chooseInputs, hpick, Option.map_some] at h
  rcases hmerge : e.scanInputs p.ids now with x | ⟨final, merged, keys_in⟩
  · rw [hmerge] at h
    cases h
  simp only [hmerge] at h
  rcases hwrite : e.writeOutput final created with x | ⟨e₁, added⟩
  · rw [hwrite] at h
    cases h
  simp only [hwrite] at h
  obtain ⟨⟨files, misindexed, rfl⟩, -⟩ := writeOutput_ok hwrite
  obtain ⟨w, hw, hids⟩ := pickCompaction_mem hpick
  rcases hpublish : Engine.publishCompactionAt none p.ids added
    { e with files := files, misindexed := misindexed } with ⟨e₂, x | removed⟩
  · rw [hpublish] at h
    cases h
  simp only [hpublish] at h
  obtain ⟨rfl, hjob⟩ := Prod.mk.inj h
  have hmanifest := publishCompactionAt_manifest none p.ids added
    { e with files := files, misindexed := misindexed }
  have hconfig := publishCompactionAt_config none p.ids added
    { e with files := files, misindexed := misindexed }
  rw [hpublish] at hmanifest hconfig
  obtain ⟨files', hdelete⟩ := deleteInputs_eq removed e₂
  refine .inr ⟨⟨_, (Except.ok.inj hjob).symm⟩, ?_, ?_⟩
  · rw [hdelete]
    exact hconfig
  · rw [hdelete]
    show e₂.manifest.tables.length < _
    rw [hmanifest, hids]
    exact length_applyCompaction_lt e.config.sort (le_max_left 2 _) hw added

/-! ## The loop -/

/-- The loop with no bound on its rounds, and the jobs it runs; none of them fails. -/
inductive AutoCompacts : Option ℕ → Engine → List CompactionJobResult → Engine → Prop
  | stop {previous : Option ℕ} {e : Engine}
      (h : ¬(e.config.l0CompactionTrigger ≤ e.manifest.tables.length ∧
        previous.all (e.manifest.tables.length < ·))) : AutoCompacts previous e [] e
  | nothing {previous : Option ℕ} {e e' : Engine} {now created : ℕ}
      (hgo : e.config.l0CompactionTrigger ≤ e.manifest.tables.length ∧
        previous.all (e.manifest.tables.length < ·))
      (hrun : e.runCompaction none now created = (e', .ok none)) : AutoCompacts previous e [] e'
  | job {previous : Option ℕ} {e e₁ e' : Engine} {now created : ℕ} {r : CompactionJobResult}
      {jobs : List CompactionJobResult}
      (hgo : e.config.l0CompactionTrigger ≤ e.manifest.tables.length ∧
        previous.all (e.manifest.tables.length < ·))
      (hrun : e.runCompaction none now created = (e₁, .ok (some r)))
      (rest : AutoCompacts (some e.manifest.tables.length) e₁ jobs e') :
      AutoCompacts previous e (r :: jobs) e'

/-- While the count is below the previous one the guard does not end the loop. -/
theorem AutoCompacts.reaches {previous : Option ℕ} {jobs : List CompactionJobResult}
    (h : AutoCompacts previous e jobs e')
    (hshrinks : previous.all (e.manifest.tables.length < ·) = true) :
    jobs.length + e'.manifest.tables.length ≤ e.manifest.tables.length ∧
      e'.manifest.tables.length <
        max e.config.l0CompactionTrigger (max 2 e.config.sizeTieredFanIn) := by
  induction h with
  | stop h =>
    have hbelow := lt_of_not_ge (fun hle => h ⟨hle, hshrinks⟩)
    rw [List.length_nil]
    omega
  | nothing hgo hrun =>
    rcases runCompaction_ok hrun with ⟨-, rfl, hfew⟩ | ⟨⟨r, hr⟩, -⟩
    · rw [List.length_nil]
      omega
    · cases hr
  | job hgo hrun rest ih =>
    rcases runCompaction_ok hrun with ⟨hr, -⟩ | ⟨-, hconfig, hless⟩
    · cases hr
    · obtain ⟨hcount, hreached⟩ := ih (by simpa using hless)
      rw [hconfig] at hreached
      rw [List.length_cons]
      exact ⟨by omega, hreached⟩

/-- One round for every table, and one more, are enough. -/
theorem autoCompacts_autoCompactFrom (clock : ℕ → ℕ × ℕ) {rounds : ℕ} {previous : Option ℕ}
    (hshrinks : previous.all (e.manifest.tables.length < ·) = true)
    (hrounds : e.manifest.tables.length < rounds)
    (hok : (e.autoCompactFrom clock rounds previous).2 = .ok ()) :
    ∃ jobs, AutoCompacts previous e jobs (e.autoCompactFrom clock rounds previous).1 := by
  induction rounds generalizing previous e with
  | zero => omega
  | succ rounds ih =>
    rw [Engine.autoCompactFrom] at hok ⊢
    split
    · rename_i hgo
      rw [if_pos hgo] at hok
      rcases hrun : e.runCompaction none (clock rounds).1 (clock rounds).2 with ⟨e₁, x | _ | r⟩
      · rw [hrun] at hok
        cases hok
      · exact ⟨[], .nothing hgo hrun⟩
      · rw [hrun] at hok
        rcases runCompaction_ok hrun with ⟨hr, -⟩ | ⟨-, -, hless⟩
        · cases hr
        · obtain ⟨jobs, rest⟩ := ih (by simpa using hless) (by omega) hok
          exact ⟨r :: jobs, .job hgo hrun rest⟩
    · rename_i hstop
      exact ⟨[], .stop hstop⟩

end

/-- Unless a job fails, the loop ends after no more jobs than there were tables, with too few
tables left for the trigger or for the picker. -/
theorem maybeAutoCompact_reaches (clock : ℕ → ℕ × ℕ) (e : Engine) (hpaused : e.paused = false)
    (hok : (e.maybeAutoCompact clock).2 = .ok ()) :
    ∃ jobs, AutoCompacts none e jobs (e.maybeAutoCompact clock).1 ∧
      jobs.length ≤ e.manifest.tables.length ∧
      (e.maybeAutoCompact clock).1.manifest.tables.length <
        max e.config.l0CompactionTrigger (max 2 e.config.sizeTieredFanIn) := by
  rw [Engine.maybeAutoCompact, hpaused] at hok ⊢
  simp only [Bool.false_eq_true, if_false] at hok ⊢
  obtain ⟨jobs, hjobs⟩ := autoCompacts_autoCompactFrom clock (by rfl)
    (Nat.lt_succ_self e.manifest.tables.length) hok
  obtain ⟨hcount, hreached⟩ := hjobs.reaches (by rfl)
  exact ⟨jobs, hjobs, by omega, hreached⟩

/-- Two tables, where two are enough for a job. -/
def pairedTables : Engine :=
  let c := { Config.small 1 4 1000 with sizeTieredFanIn := 2, l0CompactionTrigger := 2 }
  let e := ((Engine.loaded c {}).recover.put [97] [1]).1
  (((e.flushOne 5).1.put [98] [2]).1.flushOne 6).1

theorem maybeAutoCompact_reaches_pairedTables :
    ∃ jobs, AutoCompacts none pairedTables jobs
        (pairedTables.maybeAutoCompact (fun _ => (7, 8))).1 ∧ jobs.length ≤ 2 ∧
      (pairedTables.maybeAutoCompact (fun _ => (7, 8))).1.manifest.tables.length < 2 := by
  obtain ⟨jobs, hjobs, hcount, hreached⟩ := maybeAutoCompact_reaches (fun _ => (7, 8)) pairedTables
    (by decide +kernel) (by decide +kernel)
  have htables : pairedTables.manifest.tables.length = 2 := by decide +kernel
  have htarget : max pairedTables.config.l0CompactionTrigger
      (max 2 pairedTables.config.sizeTieredFanIn) = 2 := by decide +kernel
  exact ⟨jobs, hjobs, htables ▸ hcount, htarget ▸ hreached⟩

end LsmKv
