import LsmKv.LogContents
import LsmKv.SeqnoRanges

/-!
# Reloading the manifest

A flush puts its table in front, a compaction and a load sort by `max_seqno`. The two orders
agree as long as a flushed memtable reaches above everything listed.
-/

namespace LsmKv
open Sst (TableMeta)
open OrderedMap

/-! ## Keys that the manifest can be dumped with -/

def Utf8Rows (utf8 : Bytes → Bool) (rows : Rows) : Prop := ∀ p ∈ rows.entries, utf8 p.1 = true

section
variable {utf8 : Bytes → Bool}

theorem Utf8Rows.key {rows : Rows} (h : Utf8Rows utf8 rows) {k : Bytes} {e : MemEntry}
    (hk : rows.find? k = some e) : utf8 k = true := h _ (find?_eq_some_iff.mp hk)

theorem Utf8Rows.applyRecord {m : Memtable} (h : Utf8Rows utf8 m.map) {r : Record}
    (hr : utf8 r.key = true) : Utf8Rows utf8 (m.applyRecord r).map := by
  intro p hp
  have hfind := find?_eq_some_iff.mpr (show (p.1, p.2) ∈ _ from hp)
  rw [Memtable.applyRecord, Memtable.map_apply, find?_insert] at hfind
  split at hfind
  · rename_i hk
    exact hk ▸ hr
  · exact h.key hfind

/-- Every key in memory and in the log is UTF-8. -/
structure Utf8Memory (utf8 : Bytes → Bool) (e : Engine) : Prop where
  active : Utf8Rows utf8 e.active.map
  immutables : ∀ m ∈ e.immutables, Utf8Rows utf8 m.map
  log : ∀ r ∈ WalLog.records e.wal.dir, utf8 r.key = true

theorem Utf8Memory.applyMutation {e : Engine} (h : Utf8Memory utf8 e) (replaying : Bool)
    {r : Record} (hr : utf8 r.key = true) : Utf8Memory utf8 (e.applyMutation replaying r) := by
  have hactive := h.active.applyRecord hr
  have hfrozen : ∀ m ∈ e.active.applyRecord r :: e.immutables, Utf8Rows utf8 m.map :=
    List.forall_mem_cons.mpr ⟨hactive, h.immutables⟩
  rcases Engine.applyMutation_cases replaying e r with ⟨-, heq⟩ | ⟨-, heq⟩
  · rw [heq]
    exact ⟨hactive, h.immutables, h.log⟩
  · rw [heq]
    cases replaying
    · exact ⟨(fun _ hp => nomatch hp), hfrozen,
        fun a ha => h.log a (WalLog.records_roll_subset e.wal ha)⟩
    · exact ⟨(fun _ hp => nomatch hp), hfrozen, h.log⟩

theorem Utf8Memory.foldl_applyMutation {e : Engine} (h : Utf8Memory utf8 e) (replaying : Bool)
    {rs : List Record} (hrs : ∀ r ∈ rs, utf8 r.key = true) :
    Utf8Memory utf8 (rs.foldl (Engine.applyMutation replaying) e) := by
  induction rs generalizing e with
  | nil => exact h
  | cons r rs ih =>
    obtain ⟨hr, hrs⟩ := List.forall_mem_cons.mp hrs
    exact ih (h.applyMutation replaying hr) hrs

theorem Utf8Memory.write {e : Engine} (h : Utf8Memory utf8 e) (del : Bool) {key : Bytes}
    (value : Bytes) (hkey : utf8 key = true) : Utf8Memory utf8 (e.write del key value).1 := by
  have hlog : ∀ r ∈ WalLog.records (WalLog.append del key value e.wal).1.dir,
      utf8 r.key = true := by
    intro r hr
    rcases List.mem_cons.mp (WalLog.records_append_subset del key value e.wal hr) with rfl | hr
    · exact hkey
    · exact h.log r hr
  rw [Engine.write]
  split
  · exact h
  split
  · exact h
  split
  · exact h
  split
  · rename_i happend
    rw [happend] at hlog
    exact ⟨h.active, h.immutables, hlog⟩
  · rename_i l seqno happend
    rw [happend] at hlog
    have happended : Utf8Memory utf8 { e with wal := l } := ⟨h.active, h.immutables, hlog⟩
    exact happended.applyMutation false hkey

theorem utf8Memory_recover {config : Config} {d : Disk}
    (h : ∀ r ∈ WalLog.records d.wal, utf8 r.key = true) :
    Utf8Memory utf8 (Engine.loaded config d).recover := by
  obtain ⟨hdir, hread⟩ := WalLog.records_open_subset (Engine.loaded config d).wal
  have hloaded : Utf8Memory utf8 (Engine.loaded config d) :=
    ⟨(fun _ hp => nomatch hp), (fun _ hm => nomatch hm), h⟩
  have hfold := hloaded.foldl_applyMutation true (fun r hr => h r (hread hr))
  exact ⟨hfold.active, hfold.immutables, fun r hr => h r (hdir hr)⟩

theorem dumps_of_utf8 {m : Manifest} {M : List LiveTable} (hm : M.map (·.info) = m.tables)
    (h : ∀ T ∈ M, Utf8Rows utf8 T.rows) : m.dumps utf8 = true := by
  refine List.all_eq_true.mpr (fun t ht => ?_)
  obtain ⟨T, hT, rfl⟩ := List.mem_map.mp (hm ▸ ht)
  obtain ⟨p, hp, q, hq, hmin, hmax⟩ := T.keyed
  rw [← hmin, ← hmax, Bool.and_eq_true]
  exact ⟨h T hT p hp, h T hT q hq⟩

end

/-! ## Loading what was saved -/

theorem foldl_nextId_eq {ts : List TableMeta} {n : ℕ} (h : ∀ t ∈ ts, t.id < n) :
    ts.foldl (fun n t => max n (t.id + 1)) n = n := by
  induction ts with
  | nil => rfl
  | cons t ts ih =>
    obtain ⟨ht, hts⟩ := List.forall_mem_cons.mp h
    rw [List.foldl_cons, max_eq_left (Nat.succ_le_of_lt ht)]
    exact ih hts

/-- A manifest in order, with its next id free, comes back as it was saved. -/
theorem restore_eq (sort : TableSort) {m : Option Manifest}
    (hd : Descending (m.getD {}).tables)
    (hn : ∀ t ∈ (m.getD {}).tables, t.id < (m.getD {}).nextSstId) :
    Manifest.restore sort m = m.getD {} := by
  rcases m with _ | m
  · rfl
  · have hrun : sort.run m.tables = m.tables := sort.run_of_descending hd
    have hnext : m.tables.foldl (fun n t => max n (t.id + 1)) m.nextSstId = m.nextSstId :=
      foldl_nextId_eq hn
    rw [Manifest.restore, hrun, hnext]
    rfl

/-- Loading the manifest file gives the manifest in memory, whose tables the readers are on.
The document can be read as long as no bits per key in it are null. -/
def Reloads (e : Engine) : Prop :=
  ∀ sort, Manifest.restore sort e.stored = e.manifest ∧
    (Manifest.readable e.stored = true → Manifest.loadOrCreate sort e.stored = .ok e.manifest) ∧
    e.readers = e.manifest.tables

/-- A directory whose manifest file lists `D` newest first. -/
structure Disk.Filed (utf8 : Bytes → Bool) (d : Disk) (D : List LiveTable) : Prop where
  holds : d.Holds D
  tables : D.map (·.info) = (d.manifest.getD {}).tables
  newest : Newest D
  fresh : ∀ T ∈ D, T.info.id < (d.manifest.getD {}).nextSstId
  rows : ∀ T ∈ D, Utf8Rows utf8 T.rows
  log : ∀ r ∈ WalLog.records d.wal, utf8 r.key = true

/-- An engine whose manifest lists `M` newest first and is what the file says. -/
structure Filed (utf8 : Bytes → Bool) (e : Engine) (M : List LiveTable) : Prop where
  holds : Holds e M M
  newest : Newest M
  stored : e.stored.getD {} = e.manifest
  version : e.version.tables = e.readers
  config : e.config.isUtf8 = utf8
  rows : ∀ T ∈ M, Utf8Rows utf8 T.rows
  memory : Utf8Memory utf8 e

section
variable {utf8 : Bytes → Bool} {e : Engine} {M : List LiveTable}

theorem Filed.reloads (h : Filed utf8 e M) : Reloads e := by
  intro sort
  have hrestore : Manifest.restore sort e.stored = e.manifest := by
    rw [← h.stored]
    refine restore_eq sort ?_ ?_ <;> rw [h.stored, ← h.holds.manifest]
    · exact h.newest
    · intro t ht
      obtain ⟨T, hT, rfl⟩ := List.mem_map.mp ht
      exact h.holds.fresh T (List.mem_append_left _ hT)
  refine ⟨hrestore, fun hreadable => ?_, h.holds.readers.symm.trans h.holds.manifest⟩
  rw [Manifest.loadOrCreate, if_pos hreadable, hrestore]

theorem Filed.disk (h : Filed utf8 e M) : e.disk.Filed utf8 M where
  holds := h.holds.disk
  tables := h.holds.manifest.trans (congrArg Manifest.tables h.stored).symm
  newest := h.newest
  fresh T hT := by
    show T.info.id < (e.stored.getD {}).nextSstId
    rw [h.stored]
    exact h.holds.fresh T (List.mem_append_left _ hT)
  rows := h.rows
  log := h.memory.log

theorem Disk.Filed.of_eq {d d' : Disk} {D : List LiveTable} (h : d.Filed utf8 D)
    (hm : d'.manifest = d.manifest) (hf : ∀ T ∈ D, d'.files.find? T.info.id = some T.rows)
    (hlog : ∀ r ∈ WalLog.records d'.wal, utf8 r.key = true) : d'.Filed utf8 D :=
  ⟨h.holds.of_eq hm hf, hm ▸ h.tables, h.newest, hm ▸ h.fresh, h.rows, hlog⟩

theorem Filed.close (h : Filed utf8 e M) : e.close.disk.Filed utf8 M := by
  obtain ⟨hm, hf⟩ := disk_close e
  refine h.disk.of_eq hm (fun T hT => hf ▸ h.disk.holds.files T hT) (fun r hr => ?_)
  refine h.memory.log r ?_
  rw [Engine.close] at hr
  split at hr
  · exact hr
  · exact WalLog.records_close_subset e.wal hr

theorem Disk.Crashes.filed {d₁ d₂ d : Disk} (hc : Disk.Crashes d₁ d₂ d) {D₁ D₂ : List LiveTable}
    (h₁ : d₁.Filed utf8 D₁) (h₂ : d₂.Filed utf8 D₂) : ∃ D, d.Filed utf8 D := by
  obtain ⟨s, hs, hm, hf⟩ := hc.tables
  have hlog : ∀ r ∈ WalLog.records d.wal, utf8 r.key = true := fun r hr =>
    (hc.log r hr).elim (h₁.log r) (h₂.log r)
  have hkeep : ∀ D, s.Filed utf8 D → d.Filed utf8 D := by
    intro D hD
    refine hD.of_eq hm (fun T hT => ?_) hlog
    rw [(hf T.info (hD.holds.stored.mem_iff.mpr (List.mem_map_of_mem hT))).1]
    exact hD.holds.files T hT
  rcases List.mem_pair.mp hs with rfl | rfl
  · exact ⟨D₁, hkeep D₁ h₁⟩
  · exact ⟨D₂, hkeep D₂ h₂⟩

theorem eq_of_map_info {ts us : List LiveTable} (h : ts.map (·.info) = us.map (·.info))
    (hinj : ∀ T ∈ ts, ∀ U ∈ us, T.info = U.info → T = U) : ts = us := by
  induction ts generalizing us with
  | nil => exact (List.map_eq_nil_iff.mp h.symm).symm
  | cons T ts ih =>
    obtain ⟨U, us, rfl, hTU, hrest⟩ := List.map_eq_cons_iff.mp h.symm
    obtain rfl := hinj T List.mem_cons_self U List.mem_cons_self hTU.symm
    rw [ih hrest.symm (fun V hV W hW =>
      hinj V (List.mem_cons_of_mem _ hV) W (List.mem_cons_of_mem _ hW))]

theorem Disk.Filed.open {d : Disk} {D : List LiveTable} (h : d.Filed utf8 D) {config : Config}
    (hc : config.isUtf8 = utf8) (ho : Engine.open config d = .ok e) : LsmKv.Filed utf8 e D := by
  obtain ⟨M, hperm, hmap, hM⟩ := exists_loaded h.holds config
  obtain rfl := eq_of_open ho
  have hload : Manifest.restore config.sort d.manifest = d.manifest.getD {} := by
    refine restore_eq config.sort (h.tables ▸ h.newest) (fun t ht => ?_)
    obtain ⟨T, hT, rfl⟩ := List.mem_map.mp (h.tables ▸ ht)
    exact h.fresh T hT
  rw [hload, ← h.tables] at hmap
  obtain rfl := eq_of_map_info hmap (fun T hT U hU hi =>
    h.holds.inj T (hperm.mem_iff.mp hT) U hU (congrArg TableMeta.id hi))
  have hmemory : Utf8Memory utf8 (Engine.loaded config d).recover := utf8Memory_recover h.log
  rw [recover_eq] at hM hmemory ⊢
  exact ⟨hM, h.newest, hload.symm, rfl, hc, h.rows, hmemory⟩

/-! ## The calls of a session -/

/-- A write with a UTF-8 key. -/
def Utf8Key (utf8 : Bytes → Bool) : Call → Prop
  | .put key _ | .remove key => utf8 key = true
  | _ => True

instance (utf8 : Bytes → Bool) : (c : Call) → Decidable (Utf8Key utf8 c)
  | .put _ _ | .remove _ => inferInstanceAs (Decidable (_ = true))
  | .flushOne _ | .runCompaction .. => inferInstanceAs (Decidable True)

/-- A flush takes a memtable that reaches above every listed table. -/
def Rising (e : Engine) : Call → Prop
  | .flushOne _ => ∀ target ∈ e.immutables.getLast?, ∃ p ∈ target.map.entries,
      e.manifest.maxSeqno < p.2.seqno
  | _ => True

instance (e : Engine) : (c : Call) → Decidable (Rising e c)
  | .flushOne _ => inferInstanceAs (Decidable (∀ target ∈ e.immutables.getLast?,
      ∃ p ∈ target.map.entries, e.manifest.maxSeqno < p.2.seqno))
  | .put _ _ | .remove _ | .runCompaction .. => inferInstanceAs (Decidable True)

theorem Filed.write (h : Filed utf8 e M) (del : Bool) {key : Bytes} (value : Bytes)
    (hkey : utf8 key = true) : Filed utf8 (e.write del key value).1 M := by
  have hs := sameTables_write del key value e
  refine ⟨hs.holds h.holds, h.newest, ?_, (hs.version h.version).trans hs.readers.symm, ?_,
    h.rows, h.memory.write del value hkey⟩
  · rw [hs.stored, hs.manifest]
    exact h.stored
  · rw [hs.config]
    exact h.config

theorem Filed.flush (h : Filed utf8 e M) {target : Memtable} {T : LiveTable} {e' : Engine}
    (hf : Flushed e M M target T e')
    (hrise : ∃ p ∈ target.map.entries, e.manifest.maxSeqno < p.2.seqno) :
    Filed utf8 e' (T :: M) := by
  obtain ⟨p, hp, hlt⟩ := hrise
  have hnewest : Newest (T :: M) := by
    refine newest_iff.mpr (List.pairwise_cons.mpr ⟨fun U hU => ?_, newest_iff.mp h.newest⟩)
    have hU := Manifest.le_maxSeqno (h.holds.mem_manifest hU)
    have hT := T.le_max p (hf.rows ▸ hp)
    omega
  have htarget : target ∈ e.immutables := List.mem_of_getLast? hf.oldest
  obtain ⟨files, misindexed, heq⟩ := hf.eq
  refine ⟨hf.holds, hnewest, ?_, ?_, ?_, List.forall_mem_cons.mpr ⟨?_, h.rows⟩, ?_⟩
  · rw [heq]
    rfl
  · rw [heq]
  · rw [heq]
    exact h.config
  · rw [hf.rows]
    exact h.memory.immutables target htarget
  · rw [heq]
    exact ⟨h.memory.active, fun m hm => h.memory.immutables m (List.dropLast_subset _ hm),
      fun r hr => h.memory.log r (WalLog.records_removeCovered_subset _ _ hr)⟩

theorem Filed.compact (h : Filed utf8 e M) {choice : Option (List ℕ)} {now : ℕ} {e' : Engine}
    {M' D' : List LiveTable} (hc : Compacted e M M choice now e' M' D') (hs : SameMemory e e')
    (hv : e'.version.tables = e'.readers) : Filed utf8 e' M' := by
  have hrows : ∀ T ∈ M', Utf8Rows utf8 T.rows := hc.rows h.rows
  obtain ⟨rfl, hstored⟩ := hc.saved (h.config.symm ▸ dumps_of_utf8 hc.holds.manifest hrows)
  obtain ⟨ids, front, inputs, back, out, hsel, hmerges, hM'⟩ := hc.tables h.newest
  refine ⟨hc.holds, ?_, ?_, hv, hs.config ▸ h.config, hrows, ?_⟩
  · rw [Newest, hM']
    exact hmerges.placed hsel.nonempty (hsel.split ▸ h.newest)
  · rw [hstored]
    rfl
  · refine ⟨hs.active ▸ h.memory.active, hs.immutables ▸ h.memory.immutables, ?_⟩
    rw [hs.wal]
    exact h.memory.log

theorem Filed.perform (h : Filed utf8 e M) {c : Call} (hkey : Utf8Key utf8 c)
    (hrise : Rising e c) : ∃ M', Filed utf8 (e.perform c) M' := by
  cases c with
  | put key value => exact ⟨M, h.write false value hkey⟩
  | remove key => exact ⟨M, h.write true [] hkey⟩
  | flushOne now =>
    rcases h.holds.flushOne now with ⟨heq, -⟩ | ⟨target, T, hf, -⟩ | ⟨target, T, hf, -⟩
    · show ∃ M', Filed utf8 (e.flushOne now).1 M'
      rw [heq]
      exact ⟨M, h⟩
    · exact ⟨T :: M, h.flush hf (hrise target hf.oldest)⟩
    · have htarget : target ∈ e.immutables := List.mem_of_getLast? hf.oldest
      have hdumps := dumps_of_utf8 hf.holds.manifest (List.forall_mem_cons.mpr
        ⟨hf.rows ▸ h.memory.immutables target htarget, h.rows⟩)
      obtain ⟨files, misindexed, heq⟩ := hf.eq
      have hconfig : (e.flushOne now).1.config.isUtf8 = utf8 := by
        rw [heq]
        exact h.config
      have hlength := congrArg List.length (hf.holds.clean (hconfig.symm ▸ hdumps))
      rw [List.length_cons] at hlength
      omega
  | runCompaction inputs now created =>
    rcases h.holds.runCompaction h.version inputs now created with
      heq | ⟨⟨M', D', hc⟩, hs, hv⟩
    · show ∃ M', Filed utf8 (e.runCompaction inputs now created).1 M'
      rw [heq]
      exact ⟨M, h⟩
    · exact ⟨M', h.compact hc hs hv⟩

end

/-! ## Runs -/

/-- What a host keeps when its flushes rise. -/
def Host.Filed (utf8 : Bytes → Bool) : Host → Prop
  | .shut d => ∃ D, d.Filed utf8 D
  | .up e => ∃ M, LsmKv.Filed utf8 e M

theorem filed_step {utf8 : Bytes → Bool} {s s' : Host} (h : s.Filed utf8)
    (hs : Host.Step (fun c => c.isUtf8 = utf8) (fun e c => Utf8Key utf8 c ∧ Rising e c) s s') :
    s'.Filed utf8 := by
  cases hs with
  | «open» hc ho =>
    obtain ⟨D, hD⟩ := h
    exact ⟨D, hD.open hc ho⟩
  | call hc =>
    obtain ⟨M, hM⟩ := h
    exact hM.perform hc.1 hc.2
  | close =>
    obtain ⟨M, hM⟩ := h
    exact ⟨M, hM.close⟩
  | crash hc hd =>
    obtain ⟨M, hM⟩ := h
    obtain ⟨M', hM'⟩ := hM.perform hc.1 hc.2
    exact hd.filed hM.disk hM'.disk
  | crashOpen hd =>
    obtain ⟨D, hD⟩ := h
    exact hd.filed hD hD

/-- In every run with UTF-8 keys whose flushes rise above the listed tables, loading the
manifest file gives what is in memory, at every moment a store is open. -/
theorem reloads_of_rising (utf8 : Bytes → Bool) {e : Engine}
    (hrun : Host.Runs (fun c => c.isUtf8 = utf8) (fun e c => Utf8Key utf8 c ∧ Rising e c)
      (.shut {}) (.up e)) : Reloads e := by
  have hempty : Host.Filed utf8 (.shut {}) :=
    ⟨[], disk_holds_empty, rfl, .nil, (fun _ hT => nomatch hT), (fun _ hT => nomatch hT),
      fun _ hr => nomatch hr⟩
  obtain ⟨M, hM⟩ := hrun.invariant (fun _ _ h hs => filed_step h hs) hempty
  exact hM.reloads

theorem reloads_oneRow :
    Reloads ((Host.opened oneRow {}).performAll [.put [97] [1], .flushOne 5, .put [98] [2],
      .flushOne 5, .runCompaction (some [1, 2]) 5 5]) :=
  reloads_of_rising (fun _ => true)
    (Host.runs_session rfl (Host.open_of_map (by decide +kernel)) (by decide +kernel))

/-- Two rows, first cut as one memtable and then as two: the older half of what is in a table
goes in front of it. -/
def cutAnew : Engine :=
  (Host.opened (Config.small 3 4 1000) (Host.after {}
    [(Config.small 100 4 1000, [.put [97] [1], .put [98] [2]]),
      (Config.small 6 4 1000, [.flushOne 5])])).performAll [.flushOne 5]

theorem not_reloads_cutAnew :
    Host.Runs (fun c => c.isUtf8 = fun _ => true) (fun _ c => Utf8Key (fun _ => true) c)
        (.shut {}) (.up cutAnew) ∧
      cutAnew.manifest.tables.map (fun t => (t.minSeqno, t.maxSeqno)) = [(1, 1), (1, 2)] ∧
      ¬Reloads cutAnew := by
  refine ⟨.trans (Host.runs_sessions ?_ ?_) (Host.runs_session rfl (Host.open_of_map ?_) ?_),
    ?_, fun h => ?_⟩
  · simp [Config.small]
  · decide +kernel
  · decide +kernel
  · decide +kernel
  · decide +kernel
  · have hload := (h TableSort.insertion).1
    revert hload
    decide +kernel

end LsmKv
