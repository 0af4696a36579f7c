import LsmKv.SeqnoRanges
import LsmKv.ThreadsSteps
import LsmKv.WalCrash

/-!
# Crashes of a session

A crash comes between two steps of the threads, and then any number of crashes come inside
`open`. The log is one of records: what a crash leaves of its bytes is worked out with the log,
and reads as the records on stable storage and some of those that follow.
-/

namespace LsmKv
open Sst (TableMeta)
open WalFormat OrderedMap

/-! ## What a crash leaves -/

/-- A completed change of the directory stays, and of the log what `Left` says. -/
structure Disk.Left (d d' : Disk) : Prop where
  log : LsmKv.Left d.wal d'.wal
  rest : d' = { d with wal := d'.wal }

/-- `scan_all` cut short after `n` segments. -/
def WalLog.repairFirst (n : ℕ) (dir : OrderedMap ℕ (DurableFile Record)) :
    OrderedMap ℕ (DurableFile Record) :=
  dir.mapKeyed (fun id f => if id ∈ dir.keys.take n then repair f else f)

/-- The directory at some point inside `open`. Files go in the order the directory lists them,
which may be any. -/
inductive Opening (config : Config) (d : Disk) : Disk → Prop where
  | temps (gone : List ℕ) : Opening config d { d with temps := d.temps.filter (· ∉ gone) }
  | orphans {m : Manifest} (h : Manifest.loadOrCreate config.sort d.manifest = .ok m)
    (gone : List ℕ) : Opening config d { d with
      temps := []
      files := d.files.filter (fun id _ =>
        m.tables.any (fun t => t.id = id) || decide (id ∉ gone)) }
  | scan {e : Engine} (h : Engine.open config d = .ok e) (n : ℕ) :
    Opening config d { (Engine.loaded config d).disk with wal := WalLog.repairFirst n d.wal }
  | opened {e : Engine} (h : Engine.open config d = .ok e) : Opening config d e.disk

/-- A crash, and then any number of crashes inside `open`. -/
def Crashed (config : Config) (d d' : Disk) : Prop :=
  ∃ d₀, d.Left d₀ ∧
    Relation.ReflTransGen (fun d d' => ∃ d₁, Opening config d d₁ ∧ d₁.Left d') d₀ d'

/-- The mutation under way, once it has its number. -/
def Writer.inFlight : Writer → Option Record
  | .numbered r | .written r | .logged r | .applied r => some r
  | .idle | .stalled .. | .admitted .. => none

theorem Disk.Left.loads {d d' : Disk} (hleft : d.Left d') (h : Host.Loads (.shut d)) :
    Host.Loads (.shut d') := by
  rw [hleft.rest]
  exact h

theorem Opening.loads {config : Config} {d d' : Disk} (ho : Opening config d d')
    (h : Host.Loads (.shut d)) : Host.Loads (.shut d') := by
  cases ho with
  | temps gone => exact h
  | orphans hload gone => exact h
  | scan hopen n => exact h
  | opened hopen =>
    have hup : Host.Loads (.up _) := ⟨.of_open hopen, (misindexed_open hopen).trans h.2⟩
    exact hup.disk

/-! ## The log -/

/-- The segments hold an end of the mutations `L`, and `rest` of them at least. -/
structure Spans (dir : OrderedMap ℕ (DurableFile Record)) (L rest : List Record) : Prop where
  stable : WalLog.Sealed dir
  ascending : Ascending L
  suffix : WalLog.records dir <:+ L
  rest : rest <:+ WalLog.records dir

section
variable {dir dir' : OrderedMap ℕ (DurableFile Record)} {w : Wal Record}
  {A L rest q : List Record}

/-- When everything is on stable storage nothing is lost. -/
theorem Left.records_eq (h : Left dir dir')
    (hall : WalLog.durableRecords dir = WalLog.records dir) :
    WalLog.records dir' = WalLog.records dir := by
  have hdurable := h.durable
  rw [hall] at hdurable
  exact h.kept.eq_of_length_le hdurable.length_le

theorem Spans.left (h : Spans dir L rest) (hleft : Left dir dir') : Spans dir' L rest := by
  have hsame := hleft.records_eq (WalLog.durableRecords_of_sealed h.stable)
  exact ⟨hleft.stable, h.ascending, hsame ▸ h.suffix, hsame ▸ h.rest⟩

/-- With every append synced, the records of an open log are on stable storage. -/
theorem durableRecords_eq (h : WalLog.Intact w) (hsync : w.fsyncEveryN = 1) :
    WalLog.durableRecords w.dir = WalLog.records w.dir := by
  obtain ⟨pre, f, hends, hpre, hlag⟩ := h.live
  have hnone := h.lag
  have htake : f.data.take f.synced = f.data := List.take_of_length_le (by omega)
  rw [durableRecords_snoc hends hpre, records_snoc hends, htake]

theorem Keeps.left (h : Keeps w L rest) (hsync : w.fsyncEveryN = 1) (hleft : Left w.dir dir) :
    Spans dir L rest := by
  have hsame := hleft.records_eq (durableRecords_eq h.intact hsync)
  exact ⟨hleft.stable, h.ascending, hsame ▸ h.suffix, hsame ▸ h.rest⟩

/-- A record that is written and not yet synced is left or lost. -/
theorem Keeps.left_written (h : Keeps w A rest) (hsync : w.fsyncEveryN = 1) {r : Record}
    (hr : r.seqno = w.lastSeqno + 1) (hleft : Left (WalLog.writeRecord r w).dir dir) :
    Spans dir A rest ∨ Spans dir (A ++ [r]) (rest ++ [r]) := by
  have hlive := h.intact.toLive
  have hdurable := hleft.durable
  have hkept := hleft.kept
  rw [durableRecords_writeRecord hlive, durableRecords_eq h.intact hsync] at hdurable
  rw [records_writeRecord hlive] at hkept
  rcases List.prefix_concat_iff.mp hkept with hall | hkept
  · have happend := h.append hr
    have hsame : WalLog.records dir = WalLog.records (WalLog.appendRecord r w).dir :=
      hall.trans (WalLog.records_appendRecord hlive r).symm
    exact .inr ⟨hleft.stable, happend.ascending, hsame ▸ happend.suffix, hsame ▸ happend.rest⟩
  · have hsame : WalLog.records dir = WalLog.records w.dir :=
      hkept.eq_of_length_le hdurable.length_le
    exact .inl ⟨hleft.stable, h.ascending, hsame ▸ h.suffix, hsame ▸ h.rest⟩

/-- What a crash leaves of the log under the writer's hands. -/
theorem Writer.Sound.left {wr : Writer} (h : wr.Sound w A rest q) (hsync : w.fsyncEveryN = 1)
    (hleft : Left w.dir dir) :
    Spans dir A rest ∨
      ∃ r, wr.inFlight = some r ∧ wr.unacked = [] ∧ Spans dir (A ++ [r]) (rest ++ [r]) := by
  cases wr with
  | idle | stalled del key value | admitted del key value => exact .inl (Keeps.left h hsync hleft)
  | numbered r => exact .inl (h.1.left hsync hleft)
  | written r =>
    obtain ⟨l₀, hkeeps, hr, rfl⟩ := h
    rcases hkeeps.left_written hsync hr hleft with hspans | hspans
    · exact .inl hspans
    · exact .inr ⟨r, rfl, rfl, hspans⟩
  | logged r => exact .inr ⟨r, rfl, rfl, Keeps.left h hsync hleft⟩
  | applied r => exact .inl (h.1.left hsync hleft)

end

/-! ## The directory -/

/-- The tables hold the mutations `B`, the log the others of `L` and maybe some of `B`, and both
can be read. -/
structure Disk.Recalls (d : Disk) (L B rest : List Record) (D : List LiveTable) : Prop where
  split : L = B ++ rest
  fits : ∀ r ∈ L, WalLog.Fits r
  log : Spans d.wal L rest
  holds : d.Holds D
  newest : Newest D
  reads : ∀ k, (tableHit k D).bind MemEntry.result = lastWritten B k
  loads : Host.Loads (.shut d)

section
variable {d d' : Disk} {L B rest : List Record} {D : List LiveTable}

theorem Disk.Recalls.left (h : d.Recalls L B rest D) (hleft : d.Left d') :
    d'.Recalls L B rest D := by
  have hlog := h.log.left hleft.log
  have hloads := hleft.loads h.loads
  rw [hleft.rest] at hlog hloads ⊢
  exact ⟨h.split, h.fits, hlog, ⟨h.holds.stored, h.holds.files, h.holds.inj, h.holds.nodup⟩,
    h.newest, h.reads, hloads⟩

theorem Disk.Recalls.fits_log (h : d.Recalls L B rest D) :
    ∀ r ∈ WalLog.records d.wal, WalLog.Fits r :=
  fun r hr => h.fits r (h.log.suffix.subset hr)

/-- What is not in the log is in the tables. -/
theorem Disk.Recalls.lookup (h : d.Recalls L B rest D) (k : Bytes) :
    (((lastRecord k (WalLog.records d.wal)).map Record.row).or (tableHit k D)).bind
      MemEntry.result = lastWritten L k := by
  cases hlast : lastRecord k (WalLog.records d.wal) with
  | some z =>
    rw [lastWritten, lastRecord_of_suffix h.log.suffix hlast]
    rfl
  | none =>
    have hnone : lastRecord k rest = none :=
      lastRecord_eq_none.mpr fun r hr => lastRecord_eq_none.mp hlast r (h.log.rest.subset hr)
    rw [h.split, lastWritten, lastRecord_append, hnone, Option.none_or]
    exact h.reads k

/-- An engine whose log and tables are these finds the last write of every key. -/
theorem Disk.Recalls.get (h : d.Recalls L B rest D) {config : Config} {e : Engine}
    (hopen : e.ensureOpen = .ok ()) (hversion : e.version = ⟨e.immutables, e.readers⟩)
    (hmemtables : e.memtables = config.replayed (WalLog.records d.wal))
    (htables : e.readers = D.map (·.info))
    (hfiles : ∀ T ∈ D, e.files.find? T.info.id = some T.rows) (hindexed : e.misindexed = [])
    {key : Bytes} (hkey : key ≠ []) : e.get key = .ok (lastWritten L key) := by
  obtain ⟨ps, q, hsplit, -, hreplayed⟩ := config.exists_pieces (WalLog.records d.wal)
  have hactive : e.active = config.memtable q :=
    congrArg Memtables.active (hmemtables.trans hreplayed)
  have himm : e.immutables = (ps.map config.memtable).reverse :=
    congrArg Memtables.immutables (hmemtables.trans hreplayed)
  have hread : Engine.readTables e.misindexed e.files key e.readers = .ok (tableHit key D) := by
    rw [hindexed, readTables_nil, htables, findTables_eq hfiles]
  rw [get_of_pieces hopen hversion hactive himm hread hkey, ← hsplit]
  exact congrArg Except.ok (h.lookup key)

theorem Disk.Recalls.open (h : d.Recalls L B rest D) (config : Config) :
    ∃ e, Engine.open config d = .ok e ∧ e.disk.Recalls L B rest D ∧
      ∀ key ≠ [], e.get key = .ok (lastWritten L key) := by
  obtain ⟨M, hperm, htables, hM⟩ := exists_loaded h.holds config
  have hopen := open_of_holds h.holds h.loads.1 config
  have hindexed : (Engine.loaded config d).recover.misindexed = [] :=
    (misindexed_open hopen).trans h.loads.2
  have hsorted := restore_of_descending config.sort h.holds h.newest
  have hincreasing := h.log.ascending.sublist h.log.suffix.sublist
  have hrec := recovers_recover config h.log.stable h.fits_log hincreasing
  have hwal : WalLog.Sealed (Engine.loaded config d).recover.wal.dir := by
    have hpos : 0 < (Engine.loaded config d).wal.fsyncEveryN := by
      show 0 < if config.walFsyncEveryN = 0 then 1 else config.walFsyncEveryN
      split <;> omega
    rw [recover_eq]
    exact (WalLog.intact_open (l := (Engine.loaded config d).wal) h.log.stable
      (map_repair_of_fits h.fits_log) hincreasing hpos rfl).2.2.2
  have hfiles : ∀ T ∈ D,
      (Engine.loaded config d).recover.files.find? T.info.id = some T.rows :=
    fun T hT => hM.files T (List.mem_append_left _ (hperm.mem_iff.mpr hT))
  refine ⟨_, hopen, ⟨h.split, h.fits, ⟨hwal, h.log.ascending, ?_, ?_⟩, ?_, h.newest, h.reads,
    ?_, hindexed⟩, fun key hkey => ?_⟩
  · exact hrec.records.symm ▸ h.log.suffix
  · exact hrec.records.symm ▸ h.log.rest
  · exact h.holds.of_eq (by rw [recover_eq]; rfl) hfiles
  · rw [recover_eq]
    exact h.loads.1
  · refine h.get ?_ ?_ hrec.memtables ?_ hfiles hindexed hkey
    · rw [recover_eq]
      rfl
    · rw [recover_eq]
    · rw [recover_eq]
      exact hsorted

theorem repairFirst_of_fits {dir : OrderedMap ℕ (DurableFile Record)}
    (h : ∀ r ∈ WalLog.records dir, WalLog.Fits r) (n : ℕ) : WalLog.repairFirst n dir = dir := by
  have hmap : dir.entries.map (fun p => (p.1, WalLog.repair p.2)) = dir.entries.map id := by
    rw [List.map_id]
    exact congrArg OrderedMap.entries (map_repair_of_fits h)
  refine ext_entries ((List.map_congr_left fun p hp => ?_).trans (List.map_id _))
  dsimp only
  split
  · exact List.map_inj_left.mp hmap p hp
  · rfl

theorem Disk.Recalls.opening (h : d.Recalls L B rest D) {config : Config}
    (ho : Opening config d d') : d'.Recalls L B rest D := by
  have hsorted := restore_of_descending config.sort h.holds h.newest
  have hlisted : ∀ T ∈ D, (Manifest.restore config.sort d.manifest).tables.any
      (fun t => t.id = T.info.id) = true := by
    intro T hT
    refine List.any_eq_true.mpr ⟨T.info, ?_, by simp⟩
    rw [hsorted]
    exact List.mem_map_of_mem hT
  cases ho with
  | temps gone =>
    exact ⟨h.split, h.fits, h.log, h.holds.of_eq rfl h.holds.files, h.newest, h.reads, h.loads⟩
  | orphans hload gone =>
    refine ⟨h.split, h.fits, h.log, h.holds.of_eq rfl fun T hT => ?_, h.newest, h.reads, h.loads⟩
    obtain rfl := restore_of_loadOrCreate hload
    show (d.files.filter _).find? T.info.id = _
    rw [find?_filter, h.holds.files T hT, Option.filter_some, hlisted T hT]
    rfl
  | scan hopen n =>
    refine ⟨h.split, h.fits, ?_, h.holds.of_eq rfl fun T hT => ?_, h.newest, h.reads, h.loads⟩
    · show Spans (WalLog.repairFirst n d.wal) L rest
      rw [repairFirst_of_fits h.fits_log]
      exact h.log
    · show (d.files.filter _).find? T.info.id = _
      rw [find?_filter, h.holds.files T hT, Option.filter_some, hlisted T hT]
      rfl
  | @opened e hopen =>
    obtain ⟨e', hopen', hrecalls, -⟩ := h.open config
    obtain rfl := Except.ok.inj (hopen.symm.trans hopen')
    exact hrecalls

/-- Crashes inside `open` change nothing that matters. -/
theorem Disk.Recalls.crashes (h : d.Recalls L B rest D) {config : Config}
    (hcrashes : Relation.ReflTransGen (fun d d' => ∃ d₁, Opening config d d₁ ∧ d₁.Left d') d d') :
    d'.Recalls L B rest D := by
  induction hcrashes with
  | refl => exact h
  | tail _ hstep ih =>
    obtain ⟨d₁, hopening, hleft⟩ := hstep
    exact (ih.opening hopening).left hleft

end

/-! ## The session -/

namespace Threads

variable {s s' : Threads}

theorem wal_publish (hs : s.publish = some s') : s'.engine.wal = s.engine.wal := by
  obtain ⟨_, _, _, _, _, _, -, -, -, rfl⟩ := publish_cases hs
  rfl

theorem fsyncEveryN_rotate (hs : s.rotate = some s') :
    s'.engine.wal.fsyncEveryN = s.engine.wal.fsyncEveryN := by
  rw [rotate] at hs
  split at hs
  · split at hs
    · rename_i hrotates
      split at hs
      · cases hs
      obtain rfl := Option.some.inj hs
      show (s.engine.maybeRotate false).wal.fsyncEveryN = _
      rw [maybeRotate_of_rotates hrotates]
      show (WalLog.roll s.engine.wal).1.fsyncEveryN = _
      rw [WalLog.roll]
      split <;> rfl
    · obtain rfl := Option.some.inj hs
      rfl
  · cases hs

/-- No step changes how often the log is synced. -/
theorem fsyncEveryN_step {a : Action} (hs : s.step a = some s') :
    s'.engine.wal.fsyncEveryN = s.engine.wal.fsyncEveryN := by
  cases a with
  | publish => exact congrArg Wal.fsyncEveryN (wal_publish hs)
  | rotate => exact fsyncEveryN_rotate hs
  | sync =>
    simp only [step, sync] at hs
    split at hs
    · obtain rfl := Option.some.inj hs
      show (WalLog.syncPolicy s.engine.wal).fsyncEveryN = _
      rw [WalLog.syncPolicy]
      split <;> rfl
    · cases hs
  | nextSegment =>
    simp only [step, nextSegment] at hs
    split at hs
    · obtain rfl := Option.some.inj hs
      rfl
    · rename_i n id ids hremoving
      obtain rfl := Option.some.inj hs
      show (s.engine.wal.removeStep n id).fsyncEveryN = _
      rw [Wal.removeStep]
      split <;> rfl
    · cases hs
  | submit | resume | number | write | apply | flush | compact | merge | name | temp | rename
  | watermark | remove | nextInput | unlink | load | consult =>
    simp only [step, submit, resume, number, write, apply, flush, compact, merge, name, temp,
      rename, watermark, remove, nextInput, unlink, load, consult] at hs
    repeat' split at hs
    all_goals first
      | (obtain rfl := Option.some.inj hs
         rfl)
      | cases hs

section
variable {config : Config} {ok : Bytes → Bytes → Prop} {B : List Record} {ps : List (List Record)}
  {q : List Record} {D : List LiveTable} {l : Wal Record} {d : Disk}

/-- The log on disk is as the writer has it, less some segments while they are removed. -/
theorem Sound.shown (h : Sound config ok s B ps q D l) :
    s.writer.Sound s.engine.wal s.applied (ps.flatten ++ q) q := by
  have hc := h.creator
  have hshows := h.shows
  have hmutex := h.mutex
  rw [inRemoval] at hmutex
  cases hcreator : s.creator with
  | removing n ids =>
    rw [hcreator] at hc hshows hmutex
    obtain ⟨k, hwal, -⟩ := hshows
    have hquiet : s.inAppend = false := by
      by_contra hin
      cases hmutex (by simpa using hin)
    rw [hwal]
    exact h.removeFirst hquiet hc k
  | _ =>
    rw [hcreator] at hshows
    rw [show s.engine.wal = l from hshows]
    exact h.writer

/-- A mutation under way is one that may come. -/
theorem Sound.brings_inFlight (h : Sound config ok s B ps q D l) {r : Record}
    (hr : s.writer.inFlight = some r) : ok r.key r.value := by
  have hbrings := h.brings
  cases hwriter : s.writer with
  | numbered r' | written r' | logged r' | applied r' =>
    rw [hwriter] at hr hbrings
    obtain rfl := Option.some.inj hr
    exact hbrings
  | idle | stalled del key value | admitted del key value =>
    rw [hwriter] at hr
    cases hr

theorem Sound.recalls (h : Sound config ok s B ps q D l) (hloads : Host.Loads (.up s.engine))
    (hok : ∀ key value, ok key value → kMinPayload + key.length + value.length ≤ kMaxPayload)
    (hsync : s.engine.wal.fsyncEveryN = 1) (hleft : s.engine.disk.Left d) :
    ∃ L rest, (L = s.acked ∨ ∃ r ∈ s.writer.inFlight, L = s.acked ++ [r]) ∧
      d.Recalls L B rest D := by
  have hfits : ∀ r ∈ s.applied, WalLog.Fits r := fun r hr => hok r.key r.value (h.keys r hr)
  have hstored := h.stored
  have hholds : d.Holds D := by
    rw [hleft.rest]
    exact hstored.holds.disk.of_eq rfl hstored.holds.disk.files
  have hloads := hleft.loads hloads.disk
  have hacked := h.acked
  rcases h.shown.left hsync hleft.log with hspans | ⟨r, hr, hnone, hspans⟩
  · refine ⟨s.applied, _, ?_, hstored.applied, hfits, hspans, hholds, hstored.newest,
      hstored.reads, hloads⟩
    cases hwriter : s.writer with
    | applied r =>
      rw [hwriter] at hacked
      exact .inr ⟨r, rfl, hacked⟩
    | _ =>
      rw [hwriter] at hacked
      exact .inl (hacked.trans (List.append_nil _))
  · rw [hnone, List.append_nil] at hacked
    refine ⟨s.applied ++ [r], _, .inr ⟨r, hr, by rw [hacked]⟩, ?_, fun a ha => ?_, hspans, hholds,
      hstored.newest, hstored.reads, hloads⟩
    · rw [hstored.applied, List.append_assoc]
    · rcases List.mem_append.mp ha with ha | ha
      · exact hfits a ha
      · obtain rfl := List.mem_singleton.mp ha
        exact hok a.key a.value (h.brings_inFlight hr)

end

end Threads

theorem fsyncEveryN_open (w : Wal Record) : (WalLog.open w).1.fsyncEveryN = w.fsyncEveryN := by
  unfold WalLog.open
  dsimp only
  split <;> rfl

/-! ## What can be read back -/

namespace Threads

variable {s s' : Threads}

theorem loads_publish (h : Host.Loads (.up s.engine)) (ha : s.Finite .publish)
    (hs : s.publish = some s') : Host.Loads (.up s'.engine) := by
  have hsame : s'.engine.misindexed = s.engine.misindexed := by
    obtain ⟨_, _, _, _, _, _, -, -, -, rfl⟩ := publish_cases hs
    rfl
  refine ⟨?_, hsame.trans h.2⟩
  rw [publish] at hs
  split at hs
  · rename_i info hplaced
    have hadded := h.1.publishFlush info (ha info (by rw [publishing, hplaced]; rfl))
    rcases hpub : s.engine.publishFlush info with ⟨e, x | u⟩ <;> rw [hpub] at hs hadded <;>
      obtain rfl := Option.some.inj hs <;> exact hadded
  · rename_i ids added hplaced
    have hadded := h.1.publishCompaction ids
      (fun t ht => ha t (by rw [publishing, hplaced]; exact ht))
    rcases hpub : s.engine.publishCompaction ids added with ⟨e, x | removed⟩ <;>
      rw [hpub] at hs hadded <;> obtain rfl := Option.some.inj hs <;> exact hadded
  · cases hs

theorem loads_rename (h : Host.Loads (.up s.engine)) {now : ℕ} (ha : s.Indexed (.rename now))
    (hs : s.rename now = some s') : Host.Loads (.up s'.engine) := by
  rw [rename] at hs
  split at hs
  · rename_i job mem r htemp
    obtain rfl := Option.some.inj hs
    have hplaced := h.placeFile (ha mem (by rw [placing, htemp]; rfl)) r.id
    exact ⟨⟨hplaced.1.memory, hplaced.1.stored⟩, hplaced.2⟩
  · cases hs

/-- The other steps leave the manifest and the files' blocks alone. -/
theorem loads_step (h : Host.Loads (.up s.engine)) {a : Action} (ha : s.Lasting a)
    (hs : s.step a = some s') : Host.Loads (.up s'.engine) := by
  cases a with
  | publish => exact loads_publish h ha.2.1 hs
  | rename now => exact loads_rename h ha.1 hs
  | rotate =>
    simp only [step, rotate] at hs
    split at hs
    · split at hs
      · rename_i hrotates
        split at hs
        · cases hs
        obtain rfl := Option.some.inj hs
        rw [maybeRotate_of_rotates hrotates]
        exact ⟨⟨h.1.memory, h.1.stored⟩, h.2⟩
      · obtain rfl := Option.some.inj hs
        exact h
    · cases hs
  | submit | resume | number | write | sync | apply | flush | compact | merge | name | temp
  | watermark | remove | nextSegment | nextInput | unlink | load | consult =>
    simp only [step, submit, resume, number, write, sync, apply, flush, compact, merge, name, temp,
      watermark, remove, nextSegment, nextInput, unlink, load, consult] at hs
    repeat' split at hs
    all_goals first
      | (obtain rfl := Option.some.inj hs
         exact ⟨⟨h.1.memory, h.1.stored⟩, h.2⟩)
      | cases hs

end Threads

/-- What is kept through a session of such writes. -/
def Threads.Logged (config : Config) (s : Threads) : Prop :=
  s.engine.wal.fsyncEveryN = 1 ∧ Host.Loads (.up s.engine) ∧ ∃ B ps q D l,
    Threads.Sound config (fun key value => config.isUtf8 key = true ∧
      kMinPayload + key.length + value.length ≤ kMaxPayload) s B ps q D l

theorem Threads.Logged.start {config : Config} (hsync : config.walFsyncEveryN = 1) {e : Engine}
    (hopen : Engine.open config {} = .ok e) : (start e).Logged config := by
  refine ⟨?_, ⟨.of_open hopen, misindexed_open hopen⟩, _, _, _, _, _, .start _ hopen⟩
  obtain rfl := eq_of_open hopen
  have hloaded : (Engine.loaded config {}).wal.fsyncEveryN = 1 := by
    show (if config.walFsyncEveryN = 0 then 1 else config.walFsyncEveryN) = 1
    rw [hsync]
    rfl
  rw [recover_eq]
  exact (fsyncEveryN_open (Engine.loaded config {}).wal).trans hloaded

/-- Whatever a crash and crashes inside `open` after it leave, the store opens, and every key has
what the last acknowledged mutation gave it, or the one under way. -/
def Threads.CrashSafe (config : Config) (s : Threads) : Prop :=
  ∀ d, Crashed config s.engine.disk d → ∃ e', Engine.open config d = .ok e' ∧
    ∃ L, (L = s.acked ∨ ∃ r ∈ s.writer.inFlight, L = s.acked ++ [r]) ∧
      ∀ key ≠ [], e'.get key = .ok (lastWritten L key)

/-- With every append synced, a session on an empty directory is safe from a crash between any
two of its steps, as long as what it writes can be found again. -/
theorem crash_safe {config : Config} (hsync : config.walFsyncEveryN = 1) {e : Engine}
    (hopen : Engine.open config {} = .ok e) {s : Threads}
    (hrun : Threads.Runs (fun s a => Threads.Brings (fun key value => config.isUtf8 key = true ∧
      kMinPayload + key.length + value.length ≤ kMaxPayload) a ∧ s.Lasting a) (.start e) s) :
    s.CrashSafe config := by
  intro d hcrash
  have hlogged : s.Logged config := by
    refine hrun.invariant (fun s s' a hs ha hstep => ?_) (.start hsync hopen)
    obtain ⟨hevery, hloads, B, ps, q, D, l, hsound⟩ := hs
    exact ⟨(Threads.fsyncEveryN_step hstep).trans hevery, Threads.loads_step hloads ha.2 hstep,
      hsound.step (fun _ _ hok => hok.1) ha.1 hstep⟩
  obtain ⟨hevery, hloads, B, ps, q, D, l, hsound⟩ := hlogged
  obtain ⟨d₀, hleft, hcrashes⟩ := hcrash
  obtain ⟨L, rest, hL, hrecalls⟩ := hsound.recalls hloads (fun _ _ hok => hok.2) hevery hleft
  obtain ⟨e', hopen', -, hget⟩ := (hrecalls.crashes hcrashes).open config
  exact ⟨e', hopen', L, hL, hget⟩

/-! ## A crash with a write under way -/

instance (dir : OrderedMap ℕ (DurableFile Record)) : Decidable (WalLog.Sealed dir) :=
  inferInstanceAs (Decidable (∀ p ∈ dir.entries, p.2 = .durable p.2.data))

instance (dir dir' : OrderedMap ℕ (DurableFile Record)) : Decidable (Left dir dir') :=
  decidable_of_iff (WalLog.Sealed dir' ∧ WalLog.durableRecords dir <+: WalLog.records dir' ∧
    WalLog.records dir' <+: WalLog.records dir)
    ⟨fun h => ⟨h.1, h.2.1, h.2.2⟩, fun h => ⟨h.stable, h.durable, h.kept⟩⟩

theorem left_refl {dir : OrderedMap ℕ (DurableFile Record)} (h : WalLog.Sealed dir) :
    Left dir dir :=
  ⟨h, WalLog.durableRecords_of_sealed h ▸ List.prefix_refl _, List.prefix_refl _⟩

/-- The crash that keeps no more than it must. -/
def Disk.synced (d : Disk) : Disk :=
  { d with wal := d.wal.map (fun f => .durable (f.data.take f.synced)) }

/-- The second put has written its record, and the first one's table waits to be published. -/
def crashRun : List Action := [
  .submit true false [97] [1], .number, .write, .sync, .apply, .rotate,
  .flush, .temp, .rename 5,
  .submit true false [98] [2], .number, .write]

/-- The unsynced record is lost, and a second crash comes when the orphan is removed. -/
theorem crash_safe_crashRun : ∃ s d e,
    (Threads.start (Engine.loaded (Config.small 1 4 1000) {}).recover).performAll crashRun =
      some s ∧
    s.engine.files.keys = [1] ∧ s.writer.inFlight = some ⟨false, [98], [2], 2⟩ ∧
    Crashed (Config.small 1 4 1000) s.engine.disk d ∧ d.files.keys = [] ∧
    Engine.open (Config.small 1 4 1000) d = .ok e ∧ e.get [97] = .ok (some [1]) := by
  have hend : ((Threads.start (Engine.loaded (Config.small 1 4 1000) {}).recover).performAll
      crashRun).map (fun s => decide (s.engine.files.keys = [1] ∧
        s.writer.inFlight = some ⟨false, [98], [2], 2⟩ ∧ s.acked = [⟨false, [97], [1], 1⟩] ∧
        Left s.engine.wal.dir s.engine.disk.synced.wal ∧
        Manifest.readable s.engine.stored = true ∧
        (s.engine.files.filter (fun id _ =>
          (Manifest.restore .insertion s.engine.stored).tables.any (fun t => t.id = id) ||
            decide (id ∉ [1]))).keys = [])) = some true := by
    decide +kernel
  obtain ⟨s, hs, hend⟩ := Option.map_eq_some_iff.mp hend
  obtain ⟨hkeys, hflight, hacked, hleft, hread, hgone⟩ := of_decide_eq_true hend
  have hload : Manifest.loadOrCreate .insertion s.engine.stored =
      .ok (Manifest.restore .insertion s.engine.stored) := if_pos hread
  have hcrash : Crashed (Config.small 1 4 1000) s.engine.disk _ :=
    ⟨_, ⟨hleft, rfl⟩, .single ⟨_, .orphans hload [1], left_refl hleft.stable, rfl⟩⟩
  obtain ⟨e, hopen, L, hL, hget⟩ :=
    crash_safe rfl rfl (Threads.runs_performAll (by decide +kernel) hs) _ hcrash
  refine ⟨s, _, e, hs, hkeys, hflight, hcrash, hgone, hopen, (hget [97] (by decide)).trans ?_⟩
  rcases hL with rfl | ⟨r, hr, rfl⟩
  · rw [hacked]
    rfl
  · obtain rfl := Option.some.inj (hflight.symm.trans hr)
    rw [hacked]
    rfl

/-- The bits per key that a rate of false positives of zero asks for. -/
def endlessBits : Config := { Config.small 1 4 1000 with bloomBitsPerKey := .infinity }

/-- Once the first table is published, the store does not open again. -/
theorem not_crash_safe_endlessBits : ∃ e s, Engine.open endlessBits {} = .ok e ∧
    Threads.Runs (fun _ => Threads.Brings (fun key value => endlessBits.isUtf8 key = true ∧
      kMinPayload + key.length + value.length ≤ kMaxPayload)) (.start e) s ∧
    ¬s.CrashSafe endlessBits := by
  have hend : ((Threads.start (Engine.loaded endlessBits {}).recover).performAll
      [.submit true false [97] [1], .number, .write, .sync, .apply, .rotate,
        .flush, .temp, .rename 5, .publish]).map (fun s =>
      decide (Left s.engine.wal.dir s.engine.disk.synced.wal ∧
        (Engine.open endlessBits s.engine.disk.synced).map (fun _ => ()) =
          .error ⟨.corruptionDetected, "invalid manifest JSON"⟩)) = some true := by
    decide +kernel
  obtain ⟨s, hs, hend⟩ := Option.map_eq_some_iff.mp hend
  obtain ⟨hleft, hthrows⟩ := of_decide_eq_true hend
  refine ⟨_, s, rfl, Threads.runs_performAll (by decide +kernel) hs, fun h => ?_⟩
  obtain ⟨e', hopen, -⟩ := h s.engine.disk.synced ⟨_, ⟨hleft, rfl⟩, .refl⟩
  rw [hopen] at hthrows
  cases hthrows

end LsmKv
