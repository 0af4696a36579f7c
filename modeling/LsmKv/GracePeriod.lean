import LsmKv.AutoCompaction
import LsmKv.LogContents
import LsmKv.SeqnoContinuity

/-!
# Tombstones outlive their grace period

A table is stamped after everything was written that has a number up to its greatest: a number
handed out later is above all that is listed. So a tombstone is at least as old as any stamp its
age is taken from.
-/

namespace LsmKv
open Sst (TableMeta)
open OrderedMap

/-! ## Time -/

/-- The clock goes from `t` to `t'` over a call. A write is executed at `t'`. -/
def Call.Within (t t' : ℕ) : Call → Prop
  | .put _ _ | .remove _ => t ≤ t'
  | .flushOne now => t ≤ now ∧ now ≤ t'
  | .runCompaction _ now created => t ≤ now ∧ now ≤ created ∧ created ≤ t'

instance (t t' : ℕ) : (c : Call) → Decidable (c.Within t t')
  | .put _ _ | .remove _ => inferInstanceAs (Decidable (_ ≤ _))
  | .flushOne _ => inferInstanceAs (Decidable (_ ∧ _))
  | .runCompaction .. => inferInstanceAs (Decidable (_ ∧ _ ∧ _))

theorem Call.Within.le {t t' : ℕ} {c : Call} (h : c.Within t t') : t ≤ t' := by
  cases c with
  | put key value => exact h
  | remove key => exact h
  | flushOne now => exact h.1.trans h.2
  | runCompaction inputs now created => exact h.1.trans (h.2.1.trans h.2.2)

/-- A directory or an open store, the writes executed so far with their times, and the clock. -/
structure Dated where
  host : Host
  told : List (Record × ℕ)
  clock : ℕ

namespace Dated

/-- The records that a call executed at `t` adds. -/
def tell (told : List (Record × ℕ)) (r : Option Record) (t : ℕ) : List (Record × ℕ) :=
  told ++ r.toList.map (fun r => (r, t))

/-- Sessions with crashes, on a clock that never goes backwards and with a counter that does
not run out. -/
inductive Step : Dated → Dated → Prop
  | open {config d e told t} (h : Engine.open config d = .ok e) :
    Step ⟨.shut d, told, t⟩ ⟨.up e, told, t⟩
  | call {e c told t t'} (hn : e.Counted c) (h : c.Within t t') :
    Step ⟨.up e, told, t⟩ ⟨.up (e.perform c), tell told (e.accepted c) t', t'⟩
  | close {e told t} : Step ⟨.up e, told, t⟩ ⟨.shut e.close.disk, told, t⟩
  | crash {e c d told t t'} (hn : e.Counted c) (h : c.Within t t')
    (hd : Disk.Crashes e.disk (e.perform c).disk d) :
    Step ⟨.up e, told, t⟩ ⟨.shut d, tell told (e.accepted c) t', t'⟩
  | crashOpen {d d' told t} (hd : Disk.Crashes d d d') :
    Step ⟨.shut d, told, t⟩ ⟨.shut d', told, t⟩

abbrev Runs : Dated → Dated → Prop := Relation.ReflTransGen Step

end Dated

/-! ## What the calls do -/

/-- A write is refused, or it has the next number. -/
theorem write_told (e : Engine) (del : Bool) (key value : Bytes) :
    ((e.write del key value).1 = e ∧
      (e.write del key value).2.toOption.map (fun n => (⟨del, key, value, n⟩ : Record)) = none) ∨
    ∃ l : Wal Record, l.lastSeqno = e.wal.lastSeqno + 1 ∧
      WalLog.records l.dir ⊆
        ⟨del, key, value, e.wal.lastSeqno + 1⟩ :: WalLog.records e.wal.dir ∧
      (e.write del key value).1 =
        { e with wal := l }.applyMutation false ⟨del, key, value, e.wal.lastSeqno + 1⟩ ∧
      (e.write del key value).2.toOption.map (fun n => (⟨del, key, value, n⟩ : Record)) =
        some ⟨del, key, value, e.wal.lastSeqno + 1⟩ := by
  have hsubset := WalLog.records_append_subset del key value e.wal
  rw [Engine.write]
  split
  · exact .inl ⟨rfl, rfl⟩
  split
  · exact .inl ⟨rfl, rfl⟩
  split
  · exact .inl ⟨rfl, rfl⟩
  rw [WalLog.append, WalLog.appendAs] at hsubset ⊢
  rcases hcheck : Wal.checkAppend e.wal.isOpen key value with x | u
  · exact .inl ⟨rfl, rfl⟩
  · rw [hcheck] at hsubset
    exact .inr ⟨_, WalLog.appendRecord_lastSeqno _ _, hsubset, rfl, rfl⟩

/-- A flush stamps its table with its clock reading. -/
theorem flushOne_created (e : Engine) (now : ℕ) : (e.flushOne now).1.manifest = e.manifest ∨
    ∃ t, t.createdAt = now ∧ (e.flushOne now).1.manifest = e.manifest.addTable t := by
  rw [Engine.flushOne]
  rcases flushOneAt_cases none now e with ⟨-, heq⟩ | ⟨x, heq⟩ | ⟨target, r, -, heq⟩
  · rw [heq]
    exact .inl rfl
  · rw [heq]
    exact .inl rfl
  · have hmanifest := publishFlushAt_manifest none (r.toMeta now) (e.placeFile r.id target)
    rcases hpub : Engine.publishFlushAt none (r.toMeta now) (e.placeFile r.id target) with
      ⟨e₁, x | u⟩
    all_goals
      rw [hpub] at hmanifest heq
      rw [heq]
      exact .inr ⟨r.toMeta now, rfl, hmanifest⟩

/-- A compaction stamps its output with its second clock reading. -/
theorem runCompaction_created (e : Engine) (inputs : Option (List ℕ)) (now created : ℕ)
    {t : TableMeta} (ht : t ∈ (e.runCompaction inputs now created).1.manifest.tables) :
    t ∈ e.manifest.tables ∨ t.createdAt = created := by
  rw [Engine.runCompaction, Engine.runCompactionAt] at ht
  split at ht
  · exact .inl ht
  split at ht
  · exact .inl ht
  · exact .inl ht
  rename_i ids hchoice
  split at ht
  · exact .inl ht
  split at ht
  · exact .inl ht
  rename_i e₁ added hwrite
  have hadded : e₁.manifest = e.manifest ∧ ∀ t ∈ added, t.createdAt = created := by
    rw [Engine.writeOutput] at hwrite
    split at hwrite
    · obtain ⟨rfl, rfl⟩ := Prod.mk.inj (Except.ok.inj hwrite)
      exact ⟨rfl, by simp⟩
    split at hwrite
    · cases hwrite
    · rename_i e₂ r hfile
      obtain ⟨rfl, rfl⟩ := Prod.mk.inj (Except.ok.inj hwrite)
      obtain ⟨heq, -⟩ := writeSstable_eq hfile created
      refine ⟨by rw [heq], fun t ht => ?_⟩
      obtain rfl := Option.some.inj ht
      rfl
  obtain ⟨hmanifest, hcreated⟩ := hadded
  have hedited : ∀ u ∈ (e₁.publishCompactionAt none ids added).1.manifest.tables,
      u ∈ e.manifest.tables ∨ u.createdAt = created := by
    intro u hu
    rw [publishCompactionAt_manifest, hmanifest, Manifest.applyCompaction, TableSort.mem_run] at hu
    rcases List.mem_append.mp hu with hu | hu
    · exact .inl (List.mem_filter.mp hu).1
    · exact .inr (hcreated u (Option.mem_toList.mp hu))
  rcases hpub : e₁.publishCompactionAt none ids added with ⟨e₂, x | removed⟩ <;>
    rw [hpub] at hedited <;> simp only [hpub] at ht
  · exact hedited t ht
  · obtain ⟨files, heq⟩ := deleteInputs_eq removed e₂
    rw [heq] at ht
    exact hedited t ht

/-! ## Stamps -/

/-- Some record says this row. -/
def Says (told : List (Record × ℕ)) (key : Bytes) (row : MemEntry) : Prop :=
  ∃ p ∈ told, p.1.key = key ∧ p.1.row = row

/-- What has a number up to the table's greatest was executed by its stamp. -/
def Stamped (told : List (Record × ℕ)) (info : TableMeta) : Prop :=
  ∀ p ∈ told, p.1.seqno ≤ info.maxSeqno → p.2 ≤ info.createdAt

structure Disk.Aged (d : Disk) (told : List (Record × ℕ)) (D : List LiveTable) : Prop where
  holds : d.Holds D
  log : ∀ r ∈ WalLog.records d.wal, ∃ p ∈ told, p.1 = r
  rows : ∀ T ∈ D, ∀ p ∈ T.rows.entries, Says told p.1 p.2
  stamps : ∀ T ∈ D, Stamped told T.info

structure Aged (e : Engine) (told : List (Record × ℕ)) (M D : List LiveTable) : Prop where
  holds : Holds e M D
  version : e.version.tables = e.readers
  log : ∀ r ∈ WalLog.records e.wal.dir, ∃ p ∈ told, p.1 = r
  memory : ∀ m ∈ e.active :: e.immutables, m.UpTo e.wal.lastSeqno ∧
    ∀ p ∈ m.map.entries, Says told p.1 p.2
  rows : ∀ T ∈ M ++ D, ∀ p ∈ T.rows.entries, Says told p.1 p.2
  stamps : ∀ T ∈ M ++ D, Stamped told T.info
  tables : ∀ T ∈ M ++ D, T.info.maxSeqno ≤ e.wal.lastSeqno

theorem Says.mono {told told' : List (Record × ℕ)} (h : told ⊆ told') {key : Bytes}
    {row : MemEntry} (hs : Says told key row) : Says told' key row := by
  obtain ⟨p, hp, hrow⟩ := hs
  exact ⟨p, h hp, hrow⟩

theorem says_applyRecord {told : List (Record × ℕ)} {m : Memtable}
    (h : ∀ p ∈ m.map.entries, Says told p.1 p.2) {r : Record} (hr : ∃ p ∈ told, p.1 = r) :
    ∀ p ∈ (m.applyRecord r).map.entries, Says told p.1 p.2 := by
  intro p hp
  have hfind := find?_eq_some_iff.mpr (show (p.1, p.2) ∈ _ from hp)
  rw [Memtable.applyRecord, Memtable.map_apply, find?_insert] at hfind
  split at hfind
  · rename_i hkey
    obtain ⟨q, hq, rfl⟩ := hr
    exact ⟨q, hq, hkey, Option.some.inj hfind⟩
  · exact h _ (find?_eq_some_iff.mp hfind)

theorem says_memtable {told : List (Record × ℕ)} {c : Config} {rs : List Record}
    (h : ∀ r ∈ rs, ∃ p ∈ told, p.1 = r) : ∀ p ∈ (c.memtable rs).map.entries, Says told p.1 p.2 := by
  intro p hp
  obtain ⟨r, hr, hkey, hrow⟩ :=
    Memtable.exists_of_find?_ofRecords (find?_eq_some_iff.mpr (show (p.1, p.2) ∈ _ from hp))
  obtain ⟨q, hq, rfl⟩ := h r hr
  exact ⟨q, hq, hkey, hrow⟩

section
variable {e e' : Engine} {told : List (Record × ℕ)} {M D M' D' : List LiveTable}

theorem Aged.disk (h : Aged e told M D) : e.disk.Aged told D where
  holds := h.holds.disk
  log := h.log
  rows T hT := h.rows T (List.mem_append_right _ hT)
  stamps T hT := h.stamps T (List.mem_append_right _ hT)

/-- A record with a number of its own tells nothing of the tables. -/
theorem Aged.tell (h : Aged e told M D) {r : Option Record}
    (hr : ∀ a ∈ r, e.wal.lastSeqno < a.seqno) (t : ℕ) : Aged e (Dated.tell told r t) M D := by
  have hsub : told ⊆ Dated.tell told r t := List.subset_append_left _ _
  refine ⟨h.holds, h.version, fun a ha => ?_, fun m hm => ?_, fun T hT p hp => ?_,
    fun T hT p hp hle => ?_, h.tables⟩
  · obtain ⟨p, hp, hpa⟩ := h.log a ha
    exact ⟨p, hsub hp, hpa⟩
  · exact ⟨(h.memory m hm).1, fun p hp => ((h.memory m hm).2 p hp).mono hsub⟩
  · exact (h.rows T hT p hp).mono hsub
  · rcases List.mem_append.mp hp with hp | hp
    · exact h.stamps T hT p hp hle
    · obtain ⟨a, ha, rfl⟩ := List.mem_map.mp hp
      have hlt := hr a (Option.mem_toList.mp ha)
      exact absurd (h.tables T hT) (by dsimp only at hle; omega)

/-- The write itself, once it is told. -/
theorem Aged.applyMutation (h : Aged e told M D) {l : Wal Record} {r : Record}
    (hr : ∃ p ∈ told, p.1 = r) (hseqno : e.wal.lastSeqno ≤ r.seqno)
    (hlast : l.lastSeqno = r.seqno) (hsub : WalLog.records l.dir ⊆ r :: WalLog.records e.wal.dir) :
    Aged ({ e with wal := l }.applyMutation false r) told M D := by
  have hlog : ∀ a ∈ WalLog.records l.dir, ∃ p ∈ told, p.1 = a := by
    intro a ha
    rcases List.mem_cons.mp (hsub ha) with rfl | ha
    · exact hr
    · exact h.log a ha
  obtain ⟨⟨hup, hrows⟩, hold⟩ := List.forall_mem_cons.mp h.memory
  have hactive : (e.active.applyRecord r).UpTo r.seqno ∧
      ∀ p ∈ (e.active.applyRecord r).map.entries, Says told p.1 p.2 :=
    ⟨(hup.mono hseqno).applyRecord le_rfl, says_applyRecord hrows hr⟩
  have hrest : ∀ m ∈ e.active.applyRecord r :: e.immutables, m.UpTo r.seqno ∧
      ∀ p ∈ m.map.entries, Says told p.1 p.2 :=
    List.forall_mem_cons.mpr ⟨hactive, fun m hm => ⟨(hold m hm).1.mono hseqno, (hold m hm).2⟩⟩
  have htables : ∀ T ∈ M ++ D, T.info.maxSeqno ≤ r.seqno := fun T hT =>
    (h.tables T hT).trans hseqno
  rcases Engine.applyMutation_cases false { e with wal := l } r with ⟨-, heq⟩ | ⟨-, heq⟩ <;>
    rw [heq]
  · refine ⟨h.holds.of_eq rfl rfl rfl rfl rfl, h.version, hlog, ?_, h.rows, h.stamps, ?_⟩ <;>
      dsimp only <;> rw [hlast]
    · exact hrest
    · exact htables
  · have hroll : (WalLog.roll l).1.lastSeqno = r.seqno := by
      rw [← hlast, WalLog.roll]
      split <;> rfl
    refine ⟨h.holds.of_eq rfl rfl rfl rfl rfl, rfl, ?_, ?_, h.rows, h.stamps, ?_⟩
    · exact fun a ha => hlog a (WalLog.records_roll_subset l ha)
    · show ∀ m ∈ _ :: e.active.applyRecord r :: e.immutables, m.UpTo (WalLog.roll l).1.lastSeqno ∧ _
      rw [hroll]
      exact List.forall_mem_cons.mpr
        ⟨⟨fun p hp => absurd hp List.not_mem_nil, fun p hp => absurd hp List.not_mem_nil⟩, hrest⟩
    · show ∀ T ∈ M ++ D, T.info.maxSeqno ≤ (WalLog.roll l).1.lastSeqno
      rw [hroll]
      exact htables

theorem Aged.flushOne (h : Aged e told M D) {now : ℕ} (hnow : ∀ p ∈ told, p.2 ≤ now) :
    ∃ M' D', Aged (e.flushOne now).1 told M' D' := by
  have hnew : ∀ (target : Memtable) (T : LiveTable),
      e.immutables.getLast? = some target → T.rows = target.map →
      (e.flushOne now).1.manifest = e.manifest.addTable T.info →
      (∀ p ∈ T.rows.entries, Says told p.1 p.2) ∧ Stamped told T.info ∧
        T.info.maxSeqno ≤ e.wal.lastSeqno := by
    intro target T htarget hrows hmanifest
    have htold := h.memory target (List.mem_cons_of_mem _ (List.mem_of_getLast? htarget))
    obtain ⟨q, hq, hmax⟩ := T.attained
    rw [hrows] at hq ⊢
    refine ⟨htold.2, fun p hp _ => ?_, hmax ▸ htold.1 q hq⟩
    rcases flushOne_created e now with hsame | ⟨t, ht, hadded⟩
    · exact absurd (congrArg (fun m => m.tables.length) (hsame.symm.trans hmanifest))
        (by simp [Manifest.addTable])
    · have htables := congrArg Manifest.tables (hadded.symm.trans hmanifest)
      rw [← (List.cons.inj htables).1, ht]
      exact hnow p hp
  rcases h.holds.flushOne now with ⟨heq, -⟩ | ⟨target, T, hf, -⟩ | ⟨target, T, hf, -⟩
  · rw [heq]
    exact ⟨M, D, h⟩
  · have hholds := hf.holds
    obtain ⟨files, misindexed, heq⟩ := hf.eq
    obtain ⟨hrows, hstamp, hmax⟩ := hnew target T hf.oldest hf.rows (by rw [heq])
    have hopen := WalLog.isOpen_removeCovered e.wal (e.manifest.addTable T.info).maxSeqno
    rw [heq] at hholds ⊢
    refine ⟨_, _, hholds, rfl, fun a ha => ?_, fun m hm => ?_, fun U hU => ?_, fun U hU => ?_,
      fun U hU => ?_⟩
    · exact h.log a (WalLog.records_removeCovered_subset _ e.wal ha)
    · obtain ⟨hup, htold⟩ := h.memory m ((List.mem_cons.mp hm).elim (fun hm => hm ▸
        List.mem_cons_self) (fun hm => List.mem_cons_of_mem _ (List.dropLast_subset _ hm)))
      exact ⟨hup.mono hopen.2.ge, htold⟩
    all_goals rcases List.mem_cons.mp ((List.mem_append.mp hU).elim id id) with rfl | hU
    · exact hrows
    · exact h.rows U (List.mem_append_left _ hU)
    · exact hstamp
    · exact h.stamps U (List.mem_append_left _ hU)
    · exact hmax.trans hopen.2.ge
    · exact (h.tables U (List.mem_append_left _ hU)).trans hopen.2.ge
  · have hholds := hf.holds
    obtain ⟨files, misindexed, heq⟩ := hf.eq
    obtain ⟨hrows, hstamp, hmax⟩ := hnew target T hf.oldest hf.rows (by rw [heq])
    rw [heq] at hholds ⊢
    exact ⟨_, _, hholds, h.version, h.log, h.memory, List.forall_mem_cons.mpr ⟨hrows, h.rows⟩,
      List.forall_mem_cons.mpr ⟨hstamp, h.stamps⟩, List.forall_mem_cons.mpr ⟨hmax, h.tables⟩⟩

theorem Aged.runCompaction (h : Aged e told M D) (inputs : Option (List ℕ)) {now created : ℕ}
    (hcreated : ∀ p ∈ told, p.2 ≤ created) :
    ∃ M' D', Aged (e.runCompaction inputs now created).1 told M' D' := by
  have hstamps := fun t => runCompaction_created e inputs now created (t := t)
  rcases h.holds.runCompaction h.version inputs now created with heq | ⟨⟨M', D', hc⟩, hs, hv⟩
  · rw [heq]
    exact ⟨M, D, h⟩
  generalize (e.runCompaction inputs now created).1 = e' at hc hs hv hstamps
  have hall : ∀ T ∈ M', (∀ p ∈ T.rows.entries, Says told p.1 p.2) ∧ Stamped told T.info ∧
      T.info.maxSeqno ≤ e.wal.lastSeqno := by
    intro T hT
    refine ⟨hc.rows (fun U hU => h.rows U (List.mem_append_left _ hU)) T hT, fun p hp hle => ?_, ?_⟩
    · rcases hstamps T.info (hc.holds.mem_manifest hT) with ht | ht
      · rw [← h.holds.manifest] at ht
        obtain ⟨U, hU, heq⟩ := List.mem_map.mp ht
        rw [← heq] at hle ⊢
        exact h.stamps U (List.mem_append_left _ hU) p hp hle
      · exact ht ▸ hcreated p hp
    · refine ((Manifest.le_maxSeqno (hc.holds.mem_manifest hT)).trans
        (hc.maxSeqno_le h.holds)).trans (Manifest.maxSeqno_le (fun t ht => ?_))
      rw [← h.holds.manifest] at ht
      obtain ⟨U, hU, rfl⟩ := List.mem_map.mp ht
      exact h.tables U (List.mem_append_left _ hU)
  have hboth : ∀ T ∈ M' ++ D', (∀ p ∈ T.rows.entries, Says told p.1 p.2) ∧ Stamped told T.info ∧
      T.info.maxSeqno ≤ e.wal.lastSeqno := by
    intro T hT
    rcases List.mem_append.mp hT with hT | hT
    · exact hall T hT
    · rcases hc.readers with rfl | rfl
      · have hT := List.mem_append_right M hT
        exact ⟨h.rows T hT, h.stamps T hT, h.tables T hT⟩
      · exact hall T ‹_›
  refine ⟨M', D', hc.holds, hv, hs.wal ▸ h.log, ?_, fun T hT => (hboth T hT).1,
    fun T hT => (hboth T hT).2.1, fun T hT => hs.wal ▸ (hboth T hT).2.2⟩
  rw [hs.active, hs.immutables, hs.wal]
  exact h.memory

/-- A call adds what it wrote. -/
theorem Aged.perform (h : Aged e told M D) {c : Call} {t t' : ℕ} (ht : ∀ p ∈ told, p.2 ≤ t)
    (hc : c.Within t t') : Aged e (Dated.tell told (e.accepted c) t') M D ∧
      ∃ M' D', Aged (e.perform c) (Dated.tell told (e.accepted c) t') M' D' := by
  have hwrite : ∀ del key value,
      let r := (e.write del key value).2.toOption.map (fun n => (⟨del, key, value, n⟩ : Record))
      Aged e (Dated.tell told r t') M D ∧
        ∃ M' D', Aged (e.write del key value).1 (Dated.tell told r t') M' D' := by
    intro del key value
    dsimp only
    rcases write_told e del key value with ⟨heq, hnone⟩ | ⟨l, hlast, hsub, heq, hsome⟩
    · have htold := h.tell (r := none) nofun t'
      rw [hnone, heq]
      exact ⟨htold, M, D, htold⟩
    · have htold := h.tell (r := some ⟨del, key, value, e.wal.lastSeqno + 1⟩)
        (fun a ha => Option.some.inj ha ▸ Nat.lt_succ_self _) t'
      rw [hsome, heq]
      exact ⟨htold, M, D, htold.applyMutation
        ⟨_, List.mem_append_right _ (List.mem_singleton_self _), rfl⟩ (Nat.le_succ _) hlast hsub⟩
  have htold := h.tell (r := none) nofun t'
  have hsame : Dated.tell told none t' = told := List.append_nil _
  cases c with
  | put key value => exact hwrite false key value
  | remove key => exact hwrite true key []
  | flushOne now =>
    show Aged e (Dated.tell told none t') M D ∧
      ∃ M' D', Aged (e.flushOne now).1 (Dated.tell told none t') M' D'
    rw [hsame]
    exact ⟨h, h.flushOne (fun p hp => (ht p hp).trans hc.1)⟩
  | runCompaction inputs now created =>
    show Aged e (Dated.tell told none t') M D ∧
      ∃ M' D', Aged (e.runCompaction inputs now created).1 (Dated.tell told none t') M' D'
    rw [hsame]
    exact ⟨h, h.runCompaction inputs (fun p hp => (ht p hp).trans (hc.1.trans hc.2.1))⟩

/-! ## Closing, opening and crashing -/

theorem Aged.close (h : Aged e told M D) : e.close.disk.Aged told D := by
  obtain ⟨-, hf⟩ := disk_close e
  refine ⟨h.holds.close, fun r hr => h.log r ?_, h.disk.rows, h.disk.stamps⟩
  rw [Engine.close] at hr
  split at hr
  · exact hr
  · exact WalLog.records_close_subset e.wal hr

theorem Disk.Aged.open {d : Disk} (h : d.Aged told D) {config : Config}
    (ho : Engine.open config d = .ok e) : ∃ M, LsmKv.Aged e told M M := by
  obtain ⟨M, hperm, -, hM⟩ := exists_loaded h.holds config
  obtain rfl := eq_of_open ho
  obtain ⟨hdir, hread⟩ := WalLog.records_open_subset (Engine.loaded config d).wal
  have hlast : (Engine.loaded config d).recover.wal.lastSeqno =
      max (WalLog.open (Engine.loaded config d).wal).1.lastSeqno
        (Engine.loaded config d).manifest.maxSeqno := by
    rw [recover_eq]
    rfl
  have hM' : ∀ T ∈ M ++ M, T ∈ D := fun T hT =>
    hperm.mem_iff.mp ((List.mem_append.mp hT).elim id id)
  have hmemory : ∀ rs : List Record, rs ⊆ (WalLog.open (Engine.loaded config d).wal).2 →
      (config.memtable rs).UpTo (Engine.loaded config d).recover.wal.lastSeqno ∧
        ∀ p ∈ (config.memtable rs).map.entries, Says told p.1 p.2 := by
    intro rs hrs
    refine ⟨upTo_memtable (fun r hr => ?_), says_memtable (fun r hr => h.log r (hread (hrs hr)))⟩
    rw [hlast, lastSeqno_open, ← WalLog.open_snd]
    exact (WalLog.le_maxSeqno (hrs hr)).trans (le_max_left _ _)
  obtain ⟨ps, q, hsplit, -, hreplayed⟩ :=
    config.exists_pieces (WalLog.open (Engine.loaded config d).wal).2
  refine ⟨M, hM, by rw [recover_eq], fun r hr => h.log r (hdir ?_), fun m hm => ?_,
    fun T hT => h.rows T (hM' T hT), fun T hT => h.stamps T (hM' T hT), fun T hT => ?_⟩
  · rw [recover_eq] at hr
    exact hr
  · rw [recover_eq, hreplayed] at hm
    rcases List.mem_cons.mp hm with rfl | hm
    · exact hmemory q (hsplit ▸ List.subset_append_right _ _)
    · obtain ⟨p, hp, rfl⟩ := List.mem_map.mp (List.mem_reverse.mp hm)
      refine hmemory p (fun r hr => ?_)
      rw [hsplit]
      exact List.mem_append_left _ (List.mem_flatten.mpr ⟨p, hp, hr⟩)
  · rw [hlast]
    refine le_trans ?_ (le_max_right _ _)
    have hmem := hM.mem_manifest ((List.mem_append.mp hT).elim id id)
    rw [recover_eq] at hmem
    exact Manifest.le_maxSeqno hmem

theorem Disk.Crashes.aged {d₁ d₂ d : Disk} (hc : Disk.Crashes d₁ d₂ d) {D₁ D₂ : List LiveTable}
    (h₁ : d₁.Aged told D₁) (h₂ : d₂.Aged told D₂) : ∃ D, d.Aged told D := by
  have hlog : ∀ r ∈ WalLog.records d.wal, ∃ p ∈ told, p.1 = r := fun r hr =>
    (hc.log r hr).elim (h₁.log r) (h₂.log r)
  rcases hc.holds h₁.holds h₂.holds with hD | hD
  · exact ⟨D₁, hD, hlog, h₁.rows, h₁.stamps⟩
  · exact ⟨D₂, hD, hlog, h₂.rows, h₂.stamps⟩

end

/-! ## Runs -/

/-- What was told is in the past, and tells every row and every stamp. -/
def Dated.Sound (s : Dated) : Prop := (∀ p ∈ s.told, p.2 ≤ s.clock) ∧ match s.host with
  | .shut d => ∃ D, d.Aged s.told D
  | .up e => ∃ M D, Aged e s.told M D

theorem Dated.Sound.step {s s' : Dated} (h : s.Sound) (hs : Dated.Step s s') : s'.Sound := by
  obtain ⟨htimes, hstate⟩ := h
  have hpast : ∀ {told : List (Record × ℕ)} {r t t'}, (∀ p ∈ told, p.2 ≤ t) → t ≤ t' →
      ∀ p ∈ Dated.tell told r t', p.2 ≤ t' := by
    intro told r t t' ht hle p hp
    rcases List.mem_append.mp hp with hp | hp
    · exact (ht p hp).trans hle
    · obtain ⟨a, -, rfl⟩ := List.mem_map.mp hp
      exact le_rfl
  cases hs with
  | «open» ho =>
    obtain ⟨D, hD⟩ := hstate
    obtain ⟨M, hM⟩ := hD.open ho
    exact ⟨htimes, M, M, hM⟩
  | call _ hc =>
    obtain ⟨M, D, hM⟩ := hstate
    exact ⟨hpast htimes hc.le, (hM.perform htimes hc).2⟩
  | close =>
    obtain ⟨M, D, hM⟩ := hstate
    exact ⟨htimes, D, hM.close⟩
  | crash _ hc hd =>
    obtain ⟨M, D, hM⟩ := hstate
    obtain ⟨hbefore, M', D', hafter⟩ := hM.perform htimes hc
    exact ⟨hpast htimes hc.le, hd.aged hbefore.disk hafter.disk⟩
  | crashOpen hd =>
    obtain ⟨D, hD⟩ := hstate
    exact ⟨htimes, hd.aged hD hD⟩

theorem Dated.Runs.sound {s s' : Dated} (h : Dated.Runs s s') (hs : s.Sound) : s'.Sound := by
  induction h with
  | refl => exact hs
  | tail _ hlast ih => exact ih.step hlast

theorem Dated.sound_start (t : ℕ) : Dated.Sound ⟨.shut {}, [], t⟩ :=
  ⟨nofun, [], disk_holds_empty, nofun, nofun, nofun⟩

/-! ## What a compaction drops -/

/-- A compaction of these inputs leaves a row of their merge out. -/
def Engine.LeavesOut (e : Engine) (inputs : Option (List ℕ)) (now : ℕ) (key : Bytes)
    (row : MemEntry) : Prop :=
  ∃ ids ∈ (e.chooseInputs inputs).toOption.join, ∃ m ∈ (e.mergeInputs ids now).toOption,
    m.2.1.map.find? key = some row ∧ m.1.map.find? key = none

instance (e : Engine) (inputs : Option (List ℕ)) (now : ℕ) (key : Bytes) (row : MemEntry) :
    Decidable (e.LeavesOut inputs now key row) :=
  inferInstanceAs (Decidable (∃ ids ∈ (e.chooseInputs inputs).toOption.join,
    ∃ m ∈ (e.mergeInputs ids now).toOption,
      m.2.1.map.find? key = some row ∧ m.1.map.find? key = none))

theorem le_sourceCreatedAt {told : List (Record × ℕ)} {inputs : List TableMeta} {now : ℕ}
    (h : ∀ t ∈ inputs, Stamped told t) {p : Record × ℕ} (hp : p ∈ told)
    (hsource : Compaction.sourceCreatedAt inputs now p.1.seqno < now) :
    p.2 ≤ Compaction.sourceCreatedAt inputs now p.1.seqno := by
  rw [Compaction.sourceCreatedAt] at hsource ⊢
  rcases hfind : inputs.find? (fun t => t.minSeqno ≤ p.1.seqno && p.1.seqno ≤ t.maxSeqno)
    with _ | t
  · rw [hfind] at hsource
    exact absurd hsource (lt_irrefl now)
  · have hrange := List.find?_some hfind
    rw [Bool.and_eq_true, decide_eq_true_eq, decide_eq_true_eq] at hrange
    rw [hfind]
    exact h t (List.mem_of_find?_eq_some hfind) p hp hrange.2

theorem Engine.LeavesOut.exists_inputs {e : Engine} {M D : List LiveTable} (hM : Holds e M D)
    {inputs : Option (List ℕ)} {now : ℕ} {key : Bytes} {row : MemEntry}
    (h : e.LeavesOut inputs now key row) :
    ∃ (ids : List ℕ) (ts : List LiveTable), (∀ T ∈ ts, T ∈ M) ∧
      e.inputMeta ids = ts.map (·.info) ∧ (∃ T ∈ ts, T.rows.find? key = some row) ∧
      e.drops ids now row = true := by
  obtain ⟨ids, hids, ⟨final, merged, n⟩, hmerge, hbefore, hafter⟩ := h
  have hchosen : e.chooseInputs inputs = .ok (some ids) := by
    rcases hc : e.chooseInputs inputs with x | _ | ids' <;> rw [hc] at hids
    · cases hids
    · cases hids
    · obtain rfl : ids' = ids := Option.some.inj hids
      rfl
  obtain ⟨front, ts, back, hs⟩ := hM.selects hchosen
  have hlisted : ∀ T ∈ ts, T ∈ M := fun T hT => hs.mem.mpr (.inr hT)
  rw [Engine.mergeInputs, hM.inputMeta hs, scanTables_eq (fun T hT =>
    hM.files T (List.mem_append_left _ (hlisted T hT)))] at hmerge
  obtain ⟨hfinal, hrest⟩ := Prod.mk.inj (Option.some.inj (Option.mem_def.mp hmerge))
  obtain ⟨rfl, -⟩ := Prod.mk.inj hrest
  rw [← hfinal, Memtable.map_finalTable, find?_filter, hbefore, Option.filter_some] at hafter
  rw [Memtable.map_merged, find?_overlay] at hbefore
  refine ⟨ids, ts, hlisted, hM.inputMeta hs, exists_of_tableHit hbefore, ?_⟩
  by_contra hkept
  rw [if_pos (by simpa using hkept)] at hafter
  cases hafter

/-- A compaction leaves out tombstones only, each one that a remove told; and whatever has its
number was executed more than the grace period before the compaction read its clock. -/
theorem tombstones_outlive_grace {e : Engine} {told : List (Record × ℕ)} {start t : ℕ}
    (hrun : Dated.Runs ⟨.shut {}, [], start⟩ ⟨.up e, told, t⟩) {inputs : Option (List ℕ)}
    {now : ℕ} {key : Bytes} {row : MemEntry} (h : e.LeavesOut inputs now key row) :
    row.tombstone = true ∧ (∃ p ∈ told, p.1.key = key ∧ p.1.row = row) ∧
      ∀ p ∈ told, p.1.seqno = row.seqno → p.2 + e.config.tombstoneGraceSeconds < now := by
  obtain ⟨-, M, D, hM⟩ := hrun.sound (Dated.sound_start start)
  obtain ⟨ids, ts, hlisted, hmeta, ⟨T, hT, hrow⟩, hdrop⟩ := h.exists_inputs hM.holds
  rw [Engine.drops, Compaction.dropsTombstone, Bool.and_eq_true, Bool.and_eq_true,
    decide_eq_true_eq, decide_eq_true_eq, hmeta] at hdrop
  obtain ⟨⟨htomb, hold⟩, -⟩ := hdrop
  refine ⟨htomb, hM.rows T (List.mem_append_left _ (hlisted T hT)) (key, row)
    (find?_eq_some_iff.mp hrow), fun p hp hseqno => ?_⟩
  rw [← hseqno] at hold
  have hstamps : ∀ u ∈ ts.map (·.info), Stamped told u := by
    intro u hu
    obtain ⟨U, hU, rfl⟩ := List.mem_map.mp hu
    exact hM.stamps U (List.mem_append_left _ (hlisted U hU))
  have hle : p.2 ≤ Compaction.sourceCreatedAt (ts.map (·.info)) now p.1.seqno :=
    le_sourceCreatedAt hstamps hp (by omega)
  omega

/-! ## A removed key -/

namespace Dated

/-- Calls in order, each with the time it ends at. -/
def InTime : Engine → ℕ → List (Call × ℕ) → Prop
  | _, _, [] => True
  | e, t, (c, t') :: cs => (e.Counted c ∧ c.Within t t') ∧ InTime (e.perform c) t' cs

def decidableInTime : (e : Engine) → (t : ℕ) → (cs : List (Call × ℕ)) → Decidable (InTime e t cs)
  | _, _, [] => .isTrue trivial
  | e, t, (c, t') :: cs => @instDecidableAnd (e.Counted c ∧ c.Within t t')
      (InTime (e.perform c) t' cs) inferInstance (decidableInTime (e.perform c) t' cs)

instance (e : Engine) (t : ℕ) (cs : List (Call × ℕ)) : Decidable (InTime e t cs) :=
  decidableInTime e t cs

def tellAll (told : List (Record × ℕ)) (e : Engine) : List (Call × ℕ) → List (Record × ℕ)
  | [] => told
  | (c, t) :: cs => tellAll (tell told (e.accepted c) t) (e.perform c) cs

theorem runs_performAll {e : Engine} {told : List (Record × ℕ)} {t : ℕ} {cs : List (Call × ℕ)}
    (h : InTime e t cs) : ∃ t', Runs ⟨.up e, told, t⟩
      ⟨.up (e.performAll (cs.map Prod.fst)), tellAll told e cs, t'⟩ := by
  induction cs generalizing e told t with
  | nil => exact ⟨t, .refl⟩
  | cons c cs ih =>
    obtain ⟨c, t₁⟩ := c
    obtain ⟨t', hrun⟩ := ih h.2
    exact ⟨t', .head (.call h.1.1 h.1.2) hrun⟩

end Dated

/-- Three seconds of grace. -/
def patient : Config := { oneRow with tombstoneGraceSeconds := 3 }

/-- The tombstone goes to a table, and a compaction within its grace period writes it to
another. -/
def removedEarly : List (Call × ℕ) :=
  [(.put [97] [1], 1), (.flushOne 1, 1), (.remove [97], 2), (.flushOne 3, 3),
    (.runCompaction (some [1, 2]) 4 4, 4), (.put [98] [2], 4), (.flushOne 4, 4)]

theorem tombstones_outlive_grace_removedEarly :
    ((Host.opened patient {}).performAll (removedEarly.map Prod.fst)).LeavesOut
        (some [3, 4]) 8 [97] ⟨[], 2, true⟩ ∧
      (⟨true, [97], [], 2⟩, 2) ∈ Dated.tellAll [] (Host.opened patient {}) removedEarly ∧
      ∀ p ∈ Dated.tellAll [] (Host.opened patient {}) removedEarly, p.1.seqno = 2 →
        p.2 + 3 < 8 := by
  have hcalls : ∃ t, Dated.Runs ⟨.up (Host.opened patient {}), [], 0⟩
      ⟨.up ((Host.opened patient {}).performAll (removedEarly.map Prod.fst)),
        Dated.tellAll [] (Host.opened patient {}) removedEarly, t⟩ :=
    Dated.runs_performAll (by decide)
  obtain ⟨t, hcalls⟩ := hcalls
  have hopen : Dated.Step ⟨.shut {}, [], 0⟩ ⟨.up (Host.opened patient {}), [], 0⟩ :=
    .open (@Host.open_of_map patient {} (by decide +kernel))
  have hleft : ((Host.opened patient {}).performAll (removedEarly.map Prod.fst)).LeavesOut
      (some [3, 4]) 8 [97] ⟨[], 2, true⟩ := by decide +kernel
  exact ⟨hleft, by decide +kernel, (tombstones_outlive_grace (.head hopen hcalls) hleft).2.2⟩

end LsmKv
