import LsmKv.Compaction
import LsmKv.WalLog

/-!
# The engine

One process of the store without background workers, over record-level log segments and table
files kept as their rows. Sequence numbers are natural numbers here: a run that speaks of them
has the 64-bit counter not wrap as a condition of its writes. Each mutex-protected block of the
source is a definition of its own.
-/

namespace LsmKv
open Sst (TableMeta SstBuildResult SstConfig)
open WalFormat

/-- What the engine reads of its settings, the floating-point tests and sizes they enter, and
the library routines it leans on. -/
structure Config where
  memtableMaxBytes : ℕ
  maxImmutableTables : ℕ
  overheadBytesPerEntry : ℕ
  blockSize : ℕ
  restartInterval : ℕ
  bloomSize : ℕ → ℕ × ℕ
  bloomBitsPerKey : Double
  walFsyncEveryN : ℕ
  walSegmentRollBytes : ℕ
  sizeTieredFanIn : ℕ
  withinRatio : ℕ → ℕ → Bool
  tombstoneGraceSeconds : ℕ
  l0CompactionTrigger : ℕ
  l0StopWrites : ℕ
  sort : TableSort
  isUtf8 : Bytes → Bool

def Config.sst (c : Config) (entries : ℕ) : SstConfig :=
  ⟨c.blockSize, c.restartInterval, (c.bloomSize entries).1, (c.bloomSize entries).2,
    c.bloomBitsPerKey⟩

/-- Settings for small examples: no grace period, and thresholds out of reach except for the
sizes given. -/
def Config.small (memtable_max_bytes max_immutable_tables wal_segment_roll_bytes : ℕ) :
    Config where
  memtableMaxBytes := memtable_max_bytes
  maxImmutableTables := max_immutable_tables
  overheadBytesPerEntry := 1
  blockSize := 4096
  restartInterval := 16
  bloomSize _ := (64, 1)
  bloomBitsPerKey := .ten
  walFsyncEveryN := 1
  walSegmentRollBytes := wal_segment_roll_bytes
  sizeTieredFanIn := 4
  withinRatio _ _ := true
  tombstoneGraceSeconds := 0
  l0CompactionTrigger := 100
  l0StopWrites := 100
  sort := .insertion
  isUtf8 _ := true

/-- What an engine call throws. -/
inductive Raised where
  | error (e : Error)
  | fault (f : Sst.Fault)
  /-- `nlohmann::json::type_error`, which is not the engine's own exception -/
  | json
  deriving DecidableEq

/-- Where `save` can fail once the document is dumped. -/
inductive SaveFault where
  | openTemp | writeTemp | syncTemp | rename
  deriving DecidableEq, Repr

/-- The errors of `save`, without the paths they name. -/
def SaveFault.error : SaveFault → Error
  | .openTemp => ⟨.ioFailure, "cannot create temp manifest"⟩
  | .writeTemp | .syncTemp => ⟨.ioFailure, "cannot write temp manifest"⟩
  | .rename => ⟨.ioFailure, "cannot publish manifest"⟩

/-- What a directory holds between two processes. -/
structure Disk where
  wal : OrderedMap ℕ (DurableFile Record) := ∅
  manifest : Option Manifest := none
  files : OrderedMap ℕ Rows := ∅
  /-- The tables with a block whose size their index holds cut to 32 bits. -/
  misindexed : List ℕ := []
  temps : List ℕ := []
  paused : Bool := false

/-- A published snapshot. Its active memtable is the one of the engine until the next
rotation; a frozen memtable never changes. -/
structure Version where
  immutables : List Memtable := []
  tables : List TableMeta := []

structure Engine where
  config : Config
  wal : Wal Record
  stored : Option Manifest
  files : OrderedMap ℕ Rows
  misindexed : List ℕ
  temps : List ℕ
  paused : Bool
  manifest : Manifest
  readers : List TableMeta
  active : Memtable
  immutables : List Memtable
  version : Version
  closed : Bool

/-- What a row tells a reader. -/
def MemEntry.result (e : MemEntry) : Option Bytes := if e.tombstone then none else some e.value

structure CompactionJobResult where
  inputIds : List ℕ
  output : Option ℕ
  keysIn : ℕ
  keysOut : ℕ
  tombstonesKept : ℕ
  tombstonesDropped : ℕ
  deriving DecidableEq, Repr

namespace Engine

def disk (e : Engine) : Disk :=
  ⟨e.wal.dir, e.stored, e.files, e.misindexed, e.temps, e.paused⟩

def publishVersion (e : Engine) : Engine := { e with version := ⟨e.immutables, e.readers⟩ }

def ensureOpen (e : Engine) : Except Error Unit :=
  if e.closed then .error ⟨.storeClosed, "store is closed"⟩ else .ok ()

/-- `ensure_write_capacity` without background workers. -/
def ensureWriteCapacity (e : Engine) : Except Error Unit :=
  if e.config.l0StopWrites < e.manifest.tables.length then
    .error ⟨.backpressure, "too many SSTables; writes stalled until compaction runs"⟩
  else if e.active.bytes < e.config.memtableMaxBytes ∨
      e.immutables.length < e.config.maxImmutableTables then .ok ()
  else .error ⟨.backpressure, "memtable full and immutable tables at limit; run flush-now"⟩

/-! ## Writing -/

/-- The active memtable becomes the newest immutable one. -/
def freeze (e : Engine) : Engine :=
  { e with
    immutables := e.active :: e.immutables
    active := .fresh e.config.overheadBytesPerEntry }

def maybeRotate (replaying : Bool) (e : Engine) : Engine :=
  if e.active.bytes < e.config.memtableMaxBytes then e
  else if e.config.maxImmutableTables ≤ e.immutables.length then e
  else if replaying then e.freeze
  else ({ e with wal := (WalLog.roll e.wal).1 }.freeze).publishVersion

def apply (r : Record) (e : Engine) : Engine :=
  { e with active := e.active.apply r.key r.value r.seqno r.del }

def applyMutation (replaying : Bool) (e : Engine) (r : Record) : Engine :=
  (e.apply r).maybeRotate replaying

/-- What `put` and `remove` have in common. -/
def write (del : Bool) (key value : Bytes) (e : Engine) : Engine × Except Error ℕ :=
  match e.ensureOpen with
  | .error x => (e, .error x)
  | .ok _ =>
    if key = [] then (e, .error ⟨.invalidArgument, "empty key is not allowed"⟩)
    else match e.ensureWriteCapacity with
      | .error x => (e, .error x)
      | .ok _ => match WalLog.append del key value e.wal with
        | (wal, .error x) => ({ e with wal := wal }, .error x)
        | (wal, .ok seqno) =>
          ({ e with wal := wal }.applyMutation false ⟨del, key, value, seqno⟩, .ok seqno)

def put (key value : Bytes) (e : Engine) : Engine × Except Error ℕ := e.write false key value

def remove (key : Bytes) (e : Engine) : Engine × Except Error ℕ := e.write true key []

/-! ## Reading -/

def findMemtables (key : Bytes) (ms : List Memtable) : Option MemEntry :=
  ms.findSome? (fun m => m.find key)

/-- The row of the first table that has one. -/
def findTables (files : OrderedMap ℕ Rows) (key : Bytes) :
    List TableMeta → Except Error (Option MemEntry)
  | [] => .ok none
  | t :: ts => match files.find? t.id with
    | none => .error ⟨.ioFailure, "cannot open SSTable"⟩
    | some rows => match rows.find? key with
      | some e => .ok (some e)
      | none => findTables files key ts

/-- A block read with a size that was cut does not match its checksum. -/
def misread : Error := ⟨.corruptionDetected, "data block checksum mismatch"⟩

/-- `TableReader::get` of each table in turn. A table with a block that is not found whole is
taken to be unreadable in all of them. -/
def readTables (misindexed : List ℕ) (files : OrderedMap ℕ Rows) (key : Bytes) :
    List TableMeta → Except Error (Option MemEntry)
  | [] => .ok none
  | t :: ts => match files.find? t.id with
    | none => .error ⟨.ioFailure, "cannot open SSTable"⟩
    | some rows =>
      if t.id ∈ misindexed then .error misread
      else match rows.find? key with
        | some e => .ok (some e)
        | none => readTables misindexed files key ts

def get (key : Bytes) (e : Engine) : Except Error (Option Bytes) := do
  e.ensureOpen
  if key = [] then throw ⟨.invalidArgument, "empty key is not allowed"⟩
  match e.active.find key with
  | some hit => return hit.result
  | none => match findMemtables key e.version.immutables with
    | some hit => return hit.result
    | none =>
      return (← readTables e.misindexed e.files key e.version.tables).bind MemEntry.result

/-! ## Flushing -/

/-- The file of a table comes to be in its place, whatever was there. -/
abbrev placeFile (id : ℕ) (mem : Memtable) (e : Engine) : Engine :=
  { e with
    files := e.files.insert id mem.map
    misindexed :=
      if Sst.cutsSize (e.config.sst mem.entries) mem then id :: e.misindexed
      else e.misindexed.filter (· ≠ id) }

/-- `write_sstable` under the next table id: the file is in place, nothing refers to it. -/
def writeSstable (mem : Memtable) (e : Engine) : Except Raised (Engine × SstBuildResult) :=
  match Sst.writeSstable e.manifest.nextSstId mem (e.config.sst mem.entries) with
  | .error f => .error (.fault f)
  | .ok (r, _) => .ok (e.placeFile r.id mem, r)

/-- `save`: the manifest as edited in memory reaches the file, or its dump throws, or writing
it fails. Nothing reads a temporary file that is left behind. -/
def saveAt (fault : Option SaveFault) (m : Manifest) (e : Engine) : Engine × Except Raised Unit :=
  if m.dumps e.config.isUtf8 then match fault with
    | none => ({ e with manifest := m, stored := some m }, .ok ())
    | some f => ({ e with manifest := m }, .error (.error f.error))
  else ({ e with manifest := m }, .error .json)

/-- The publishing block of `flush_one`. -/
def publishFlushAt (fault : Option SaveFault) (info : TableMeta) (e : Engine) :
    Engine × Except Raised Unit :=
  match e.saveAt fault (e.manifest.addTable info) with
  | (e, .error x) => (e, .error x)
  | (e, .ok _) => ({ e with
      readers := info :: e.readers
      immutables := e.immutables.dropLast }.publishVersion, .ok ())

def publishFlush (info : TableMeta) (e : Engine) : Engine × Except Raised Unit :=
  e.publishFlushAt none info

def removeCovered (e : Engine) : Engine :=
  { e with wal := (e.wal.removeSegmentsCovered e.manifest.maxSeqno).1 }

/-- `flush_one`, with the clock reading it stamps the table with. -/
def flushOneAt (fault : Option SaveFault) (now : ℕ) (e : Engine) : Engine × Except Raised Bool :=
  match e.immutables.getLast? with
  | none => (e, .ok false)
  | some target => match e.writeSstable target with
    | .error x => (e, .error x)
    | .ok (e, r) => match e.publishFlushAt fault (r.toMeta now) with
      | (e, .error x) => (e, .error x)
      | (e, .ok _) => (e.removeCovered, .ok true)

def flushOne (now : ℕ) (e : Engine) : Engine × Except Raised Bool := e.flushOneAt none now

/-! ## Compacting -/

def chooseInputs (inputs : Option (List ℕ)) (e : Engine) : Except Raised (Option (List ℕ)) :=
  match inputs with
  | some ids => match Compaction.explicitInputs e.manifest.tables ids with
    | .error x => .error (.error x)
    | .ok ids => .ok (some ids)
  | none => .ok ((Compaction.pickCompaction e.config.sizeTieredFanIn e.config.withinRatio
      e.manifest.tables).map (·.ids))

/-- The metadata of the inputs, newest first. -/
def inputMeta (ids : List ℕ) (e : Engine) : List TableMeta :=
  ids.filterMap (fun id => e.manifest.tables.find? (fun t => t.id = id))

/-- `scan_sstable` of each table. -/
def scanTables (files : OrderedMap ℕ Rows) : List TableMeta → Except Raised (List Rows)
  | [] => .ok []
  | t :: ts => match files.find? t.id with
    | none => .error (.error ⟨.ioFailure, "cannot open SSTable"⟩)
    | some rows => match scanTables files ts with
      | .error x => .error x
      | .ok rest => .ok (rows :: rest)

/-- Whether the merge leaves out a row. -/
def drops (ids : List ℕ) (now : ℕ) (e : Engine) : MemEntry → Bool :=
  Compaction.dropsTombstone e.config.tombstoneGraceSeconds now
    (Compaction.outsideOldestMinSeqno e.manifest.tables ids) (e.inputMeta ids)

/-- The rows the output is to hold, with the merge they come from. -/
def mergeInputs (ids : List ℕ) (now : ℕ) (e : Engine) :
    Except Raised (Memtable × Memtable × ℕ) :=
  match scanTables e.files (e.inputMeta ids) with
  | .error x => .error x
  | .ok rows =>
    let merged := Memtable.merged e.config.overheadBytesPerEntry rows
    .ok (Memtable.finalTable e.config.overheadBytesPerEntry (e.drops ids now) merged, merged,
      (rows.map (fun r => r.entries.length)).sum)

/-- The merge, unless an input cannot be read. -/
def scanInputs (ids : List ℕ) (now : ℕ) (e : Engine) :
    Except Raised (Memtable × Memtable × ℕ) :=
  match e.mergeInputs ids now with
  | .error x => .error x
  | .ok merge =>
    if ids.any (· ∈ e.misindexed) then .error (.error misread) else .ok merge

/-- Writing the output, if there is anything to write. -/
def writeOutput (final : Memtable) (created : ℕ) (e : Engine) :
    Except Raised (Engine × Option TableMeta) :=
  if final.entries = 0 then .ok (e, none)
  else match e.writeSstable final with
    | .error x => .error x
    | .ok (e, r) => .ok (e, some (r.toMeta created))

/-- The publishing block of `run_compaction`, with the readers it takes out. -/
def publishCompactionAt (fault : Option SaveFault) (ids : List ℕ) (added : Option TableMeta)
    (e : Engine) : Engine × Except Raised (List TableMeta) :=
  match e.saveAt fault (e.manifest.applyCompaction e.config.sort ids added) with
  | (e, .error x) => (e, .error x)
  | (e, .ok _) =>
    let reader (t : TableMeta) := (e.readers.find? (fun r => r.id = t.id)).getD t
    ({ e with readers := e.manifest.tables.map reader }.publishVersion,
      .ok (e.readers.filter (fun r => r.id ∈ ids)))

def publishCompaction (ids : List ℕ) (added : Option TableMeta) (e : Engine) :
    Engine × Except Raised (List TableMeta) :=
  e.publishCompactionAt none ids added

/-- An input's file goes if no version refers to it; `held` are those that gets hold on to. -/
def deleteInput (held : List Version) (e : Engine) (r : TableMeta) : Engine :=
  if (e.version :: held).any (fun v => v.tables.any (fun t => t.id = r.id)) then e
  else { e with files := e.files.erase r.id }

/-- `run_compaction`, with its two clock readings: the age of tombstones is measured against
`now`, the output is stamped with `created`. -/
def runCompactionAt (fault : Option SaveFault) (inputs : Option (List ℕ)) (now created : ℕ)
    (e : Engine) : Engine × Except Raised (Option CompactionJobResult) :=
  match e.ensureOpen with
  | .error x => (e, .error (.error x))
  | .ok _ => match e.chooseInputs inputs with
    | .error x => (e, .error x)
    | .ok none => (e, .ok none)
    | .ok (some ids) => match e.scanInputs ids now with
      | .error x => (e, .error x)
      | .ok (final, merged, keys_in) => match e.writeOutput final created with
        | .error x => (e, .error x)
        | .ok (e, added) => match e.publishCompactionAt fault ids added with
          | (e, .error x) => (e, .error x)
          | (e, .ok removed) => (removed.foldl (deleteInput []) e, .ok (some {
              inputIds := ids
              output := added.map (·.id)
              keysIn := keys_in
              keysOut := final.entries
              tombstonesKept := (final.map.entries.filter (fun r => r.2.tombstone)).length
              tombstonesDropped := merged.entries - final.entries }))

def runCompaction (inputs : Option (List ℕ)) (now created : ℕ) (e : Engine) :
    Engine × Except Raised (Option CompactionJobResult) :=
  e.runCompactionAt none inputs now created

/-- The loop of `maybe_auto_compact`; every round but the last shrinks the table set. -/
def autoCompactFrom (clock : ℕ → ℕ × ℕ) : ℕ → Option ℕ → Engine → Engine × Except Raised Unit
  | 0, _, e => (e, .ok ())
  | rounds + 1, previous, e =>
    let count := e.manifest.tables.length
    if e.config.l0CompactionTrigger ≤ count ∧ previous.all (count < ·) then
      match e.runCompaction none (clock rounds).1 (clock rounds).2 with
      | (e, .error x) => (e, .error x)
      | (e, .ok none) => (e, .ok ())
      | (e, .ok (some _)) => autoCompactFrom clock rounds (some count) e
    else (e, .ok ())

def maybeAutoCompact (clock : ℕ → ℕ × ℕ) (e : Engine) : Engine × Except Raised Unit :=
  if e.paused then (e, .ok ())
  else autoCompactFrom clock (e.manifest.tables.length + 1) none e

/-- The loop of `flush_pending`, with the table each round puts at the front. -/
def flushAll (clock : ℕ → ℕ) : ℕ → Engine → Engine × Except Raised (List TableMeta)
  | 0, e => (e, .ok [])
  | rounds + 1, e =>
    if e.immutables = [] then (e, .ok [])
    else match e.flushOne (clock rounds) with
      | (e, .error x) => (e, .error x)
      | (e, .ok false) => (e, .ok [])
      | (e, .ok true) => match flushAll clock rounds e with
        | (e', .error x) => (e', .error x)
        | (e', .ok rest) => (e', .ok (e.manifest.tables.head?.toList ++ rest))

def flushPending (flush_clock : ℕ → ℕ) (compact_clock : ℕ → ℕ × ℕ) (e : Engine) :
    Engine × Except Raised (List TableMeta) :=
  match e.ensureOpen with
  | .error x => (e, .error (.error x))
  | .ok _ => match e.flushAll flush_clock e.immutables.length with
    | (e, .error x) => (e, .error x)
    | (e, .ok results) => match e.maybeAutoCompact compact_clock with
      | (e, .error x) => (e, .error x)
      | (e, .ok _) => (e, .ok results)

/-! ## Opening and closing -/

/-- The engine `open` has built once the manifest is loaded, which did not throw, and the
directory cleaned: no temporary file is left and no table file the manifest does not list. -/
def loaded (config : Config) (d : Disk) : Engine :=
  let m := Manifest.restore config.sort d.manifest
  { config := config
    wal := Wal.create d.wal config.walFsyncEveryN config.walSegmentRollBytes
    stored := d.manifest
    files := d.files.filter (fun id _ => m.tables.any (fun t => t.id = id))
    misindexed := d.misindexed
    temps := []
    paused := d.paused
    manifest := m
    readers := m.tables
    active := .fresh config.overheadBytesPerEntry
    immutables := []
    version := {}
    closed := false }

/-- Replaying the log into memtables. -/
def recover (e : Engine) : Engine :=
  let opened := WalLog.open e.wal
  let e' := opened.2.foldl (applyMutation true) e
  { e' with wal := opened.1.bumpSeqno e.manifest.maxSeqno }.publishVersion

def «open» (config : Config) (d : Disk) : Except Error Engine :=
  match Manifest.loadOrCreate config.sort d.manifest with
  | .error x => .error x
  | .ok _ =>
    let e := loaded config d
    if e.readers.all (fun t => (e.files.find? t.id).isSome) then .ok e.recover
    else .error ⟨.corruptionDetected, "manifest references missing SSTable"⟩

/-- `close` without background workers: queued immutables stay in the log. -/
def close (e : Engine) : Engine :=
  if e.closed then e else { e with wal := e.wal.close, closed := true }

end Engine
end LsmKv
