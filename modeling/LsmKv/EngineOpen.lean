import LsmKv.EngineTables
import LsmKv.Replay
import LsmKv.WalAgreement

/-!
# What opening a directory gives

The live tables are those of the stored manifest, sorted; the memtables are what the log's
records build.
-/

namespace LsmKv
open Sst (TableMeta)
open WalFormat OrderedMap

/-- What replay makes of these records. -/
def Config.replayed (c : Config) (rs : List Record) : Memtables :=
  rs.foldl (Memtables.take c) ⟨c.memtable [], []⟩

/-- Replay cuts the records into pieces, whatever the sizes. -/
theorem Config.exists_pieces (c : Config) (rs : List Record) :
    ∃ (ps : List (List Record)) (q : List Record), rs = ps.flatten ++ q ∧ (∀ p ∈ ps, p ≠ []) ∧
      c.replayed rs = ⟨c.memtable q, (ps.map c.memtable).reverse⟩ := by
  induction rs using List.reverseRecOn with
  | nil => exact ⟨[], [], rfl, nofun, rfl⟩
  | append_singleton rs r ih =>
    obtain ⟨ps, q, hsplit, hne, heq⟩ := ih
    rw [Config.replayed, List.foldl_append, ← Config.replayed, heq]
    have hactive : (c.memtable q).applyRecord r = c.memtable (q ++ [r]) :=
      (c.memtable_snoc q r).symm
    rw [List.foldl_cons, List.foldl_nil, Memtables.take]
    dsimp only
    split
    · refine ⟨ps ++ [q ++ [r]], [], by simp [hsplit], fun p hp => ?_, ?_⟩
      · rcases List.mem_append.mp hp with hp | hp
        · exact hne p hp
        · exact List.mem_singleton.mp hp ▸ by simp
      · rw [hactive]
        simp
    · exact ⟨ps, q ++ [r], by rw [hsplit, List.append_assoc], hne, by rw [hactive]⟩

theorem recover_eq (config : Config) (d : Disk) :
    (Engine.loaded config d).recover = { Engine.loaded config d with
      wal := (WalLog.open (Engine.loaded config d).wal).1.bumpSeqno
        (Engine.loaded config d).manifest.maxSeqno
      active := (config.replayed (WalLog.open (Engine.loaded config d).wal).2).active
      immutables := (config.replayed (WalLog.open (Engine.loaded config d).wal).2).immutables
      version := ⟨(config.replayed (WalLog.open (Engine.loaded config d).wal).2).immutables,
        (Engine.loaded config d).readers⟩ } := by
  rw [Engine.recover, Engine.foldl_applyMutation_true]
  rfl

@[simp] theorem memtables_recover (config : Config) (d : Disk) :
    (Engine.loaded config d).recover.memtables =
      config.replayed (WalLog.open (Engine.loaded config d).wal).2 := by
  rw [recover_eq]
  rfl

theorem restore_tables (sort : TableSort) (m : Option Manifest) :
    (Manifest.restore sort m).tables.Perm (m.elim [] (·.tables)) := by
  rcases m with _ | m
  · exact List.Perm.refl []
  · exact sort.perm m.tables

theorem lt_restore_nextSstId (sort : TableSort) (m : Option Manifest) :
    ∀ t ∈ (Manifest.restore sort m).tables,
      t.id < (Manifest.restore sort m).nextSstId := by
  rcases m with _ | m
  · exact fun t ht => nomatch ht
  · exact (le_foldl_nextId (sort.run m.tables) m.nextSstId).2

/-- What a directory is loaded as whose tables are in place. -/
theorem exists_loaded {d : Disk} {D : List LiveTable} (h : d.Holds D) (config : Config) :
    ∃ M, M.Perm D ∧
      M.map (·.info) = (Manifest.restore config.sort d.manifest).tables ∧
      Holds (Engine.loaded config d).recover M M := by
  have hperm := restore_tables config.sort d.manifest
  obtain ⟨M, hM, hmap⟩ := exists_perm_map (h.stored.symm.trans hperm.symm)
  have hlisted : ∀ T ∈ M,
      (Engine.loaded config d).files.find? T.info.id = some T.rows := by
    intro T hT
    show (d.files.filter _).find? T.info.id = _
    rw [find?_filter, h.files T (hM.mem_iff.mp hT), Option.filter_some, if_pos]
    refine List.any_eq_true.mpr ⟨T.info, ?_, by simp⟩
    rw [← hmap]
    exact List.mem_map_of_mem hT
  have hself : ∀ T ∈ M ++ M, T ∈ M := fun T hT => (List.mem_append.mp hT).elim id id
  refine ⟨M, hM, hmap, ?_⟩
  rw [recover_eq]
  refine ⟨hmap, hmap, fun T hT => hlisted T (hself T hT), fun T hT => ?_, ?_,
    ⟨hM.nodup_iff.mpr h.nodup, hM.nodup_iff.mpr h.nodup⟩, hperm.symm, fun _ => rfl⟩
  · refine lt_restore_nextSstId config.sort d.manifest T.info ?_
    rw [← hmap]
    exact List.mem_map_of_mem (hself T hT)
  · intro T hT U hU hid
    exact h.inj T (hM.mem_iff.mp (hself T hT)) U (hM.mem_iff.mp (hself U hU)) hid

/-- A directory opens whose tables are in place and whose manifest can be read. -/
theorem open_of_holds {d : Disk} {D : List LiveTable} (h : d.Holds D)
    (hread : Manifest.readable d.manifest = true) (config : Config) :
    Engine.open config d = .ok (Engine.loaded config d).recover := by
  obtain ⟨M, -, hmap, hM⟩ := exists_loaded h config
  have hload : Manifest.loadOrCreate config.sort d.manifest =
      .ok (Manifest.restore config.sort d.manifest) := if_pos hread
  rw [Engine.open, hload]
  refine if_pos (List.all_eq_true.mpr (fun t ht => ?_))
  obtain ⟨T, hT, rfl⟩ := List.mem_map.mp (hmap ▸ ht : t ∈ M.map (·.info))
  have hfile := hM.files T (List.mem_append_left _ hT)
  rw [recover_eq] at hfile
  rw [hfile]
  rfl

/-- The empty directory. -/
theorem disk_holds_empty : Disk.Holds {} [] where
  stored := List.Perm.refl _
  files _ hT := nomatch hT
  inj _ hT := nomatch hT
  nodup := .nil

/-! ## The log across a clean restart -/

/-- Cutting at oversize records leaves a log without any as it is. -/
theorem map_repair_of_fits {dir : OrderedMap ℕ (DurableFile Record)}
    (h : ∀ r ∈ WalLog.records dir, WalLog.Fits r) : dir.map WalLog.repair = dir := by
  have hrepair : ∀ p ∈ dir.entries, WalLog.repair p.2 = p.2 := by
    intro p hp
    have hall : WalLog.survivors p.2.data = p.2.data :=
      List.takeWhile_eq_self_iff.mpr (fun r hr =>
        decide_eq_true (h r (List.mem_flatMap.mpr ⟨p, hp, hr⟩)))
    refine DurableFile.ext ?_ ?_
    · show p.2.data.take (WalLog.survivors p.2.data).length = _
      rw [hall, List.take_length]
    · show min p.2.synced (WalLog.survivors p.2.data).length = _
      rw [hall]
      exact min_eq_left p.2.synced_le
  refine ext_entries ?_
  rw [entries_map]
  exact (List.map_congr_left (fun p hp => by rw [hrepair p hp])).trans (List.map_id' _)

/-- What opening makes of a log all of whose records it can read. -/
structure Recovers (config : Config) (d : Disk) (e : Engine) : Prop where
  log : WalLog.Intact e.wal
  isOpen : e.wal.isOpen = true
  segments : WalLog.segments e.wal.dir =
    if d.wal = ∅ then [[]] else WalLog.segments d.wal
  lastSeqno : e.wal.lastSeqno = max (WalLog.maxSeqno (WalLog.records d.wal)) e.manifest.maxSeqno
  memtables : e.memtables = config.replayed (WalLog.records d.wal)

theorem Recovers.records {config : Config} {d : Disk} {e : Engine} (h : Recovers config d e) :
    WalLog.records e.wal.dir = WalLog.records d.wal := by
  rw [← WalLog.flatten_segments, h.segments, ← WalLog.flatten_segments]
  split
  · rename_i hempty
    rw [hempty]
    rfl
  · rfl

theorem intact_bumpSeqno {l : Wal Record} (h : WalLog.Intact l) (n : ℕ) :
    WalLog.Intact (l.bumpSeqno n) :=
  ⟨h.live, h.lag, h.increasing, fun r hr => (h.bounded r hr).trans (le_max_left _ _), h.known⟩

theorem lastSeqno_open (l : Wal Record) :
    (WalLog.open l).1.lastSeqno = WalLog.maxSeqno (WalLog.records (l.dir.map WalLog.repair)) := by
  unfold WalLog.open
  dsimp only
  split <;> rfl

theorem segments_open {l : Wal Record} (h : l.dir.map WalLog.repair = l.dir) :
    WalLog.segments (WalLog.open l).1.dir =
      if l.dir = ∅ then [[]] else WalLog.segments l.dir := by
  unfold WalLog.open
  rw [h]
  rcases hlast : l.dir.entries.getLast? with _ | ⟨id, f⟩
  · have hnil : l.dir = ∅ := ext_entries (List.getLast?_eq_none_iff.mp hlast)
    rw [if_pos hnil]
    simp only [hlast]
    show WalLog.segments (l.dir.insert 1 ((l.dir.find? 1).getD .new)) = _
    rw [hnil]
    rfl
  · have hne : l.dir ≠ ∅ := by
      intro hnil
      rw [hnil] at hlast
      cases hlast
    have hmem : l.dir.find? id = some f :=
      find?_eq_some_iff.mpr (List.mem_of_mem_getLast? hlast)
    rw [if_neg hne]
    simp only [hlast]
    show WalLog.segments (Wal.openFile id (WalLog.recovered l.dir l)).dir = _
    rw [Wal.dir_openFile (w := WalLog.recovered l.dir l) hmem]
    rfl

theorem recovers_recover (config : Config) {d : Disk} (hs : WalLog.Sealed d.wal)
    (hfits : ∀ r ∈ WalLog.records d.wal, WalLog.Fits r)
    (hinc : (WalLog.records d.wal).Pairwise (fun a b => a.seqno < b.seqno)) :
    Recovers config d (Engine.loaded config d).recover := by
  have hrepair : d.wal.map WalLog.repair = d.wal := map_repair_of_fits hfits
  have hpos : 0 < (Engine.loaded config d).wal.fsyncEveryN := by
    show 0 < if config.walFsyncEveryN = 0 then 1 else config.walFsyncEveryN
    split <;> omega
  obtain ⟨hlog, hopen, -, -⟩ := WalLog.intact_open (l := (Engine.loaded config d).wal)
    hs hrepair hinc hpos rfl
  have hread : (WalLog.open (Engine.loaded config d).wal).2 = WalLog.records d.wal := by
    rw [WalLog.open_snd]
    exact congrArg WalLog.records hrepair
  refine ⟨?_, ?_, ?_, ?_, ?_⟩
  · rw [recover_eq]
    exact intact_bumpSeqno hlog _
  · rw [recover_eq]
    exact hopen
  · rw [recover_eq]
    exact segments_open hrepair
  · rw [recover_eq]
    show max (WalLog.open (Engine.loaded config d).wal).1.lastSeqno _ = _
    rw [lastSeqno_open]
    exact congrArg (fun dir => max (WalLog.maxSeqno (WalLog.records dir)) _) hrepair
  · rw [memtables_recover, hread]

end LsmKv
