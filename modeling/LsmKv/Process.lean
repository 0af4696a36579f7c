import LsmKv.CachedReads
import LsmKv.Threads

/-!
# One process and its readers

The store of one process over table files kept byte by byte: the readers it makes, the block
cache they share, and the gets, flushes and compactions that use them, in any order of steps.
The log only decides which records reach a memtable and is left out. A get can also be run
without caches, for comparison.
-/

namespace LsmKv
open Sst (TableMeta SstBuildResult TableReader BlockCache Fault ReadContext)

/-- A published snapshot. A reader is named by its place among all readers ever made. -/
structure Snapshot where
  immutables : List Memtable := []
  tables : List ℕ := []

/-- What a get consults next. -/
inductive Spot where
  | active
  | immutables (rest : List Memtable)
  | tables (rest : List ℕ)

/-- A get in flight; `own` is the active memtable of its snapshot once that is rotated out. -/
structure Lookup where
  key : Bytes
  snapshot : Snapshot
  own : Option Memtable
  spot : Spot

def Lookup.keep (m : Memtable) (g : Lookup) : Lookup := { g with own := some (g.own.getD m) }

/-- Where `flush_one` or `run_compaction` stands. -/
inductive Progress where
  | idle
  | chosen (live : List TableMeta) (ids : List ℕ)
  | merged (ids : List ℕ) (final : Memtable)
  | named (job : Purpose) (mem : Memtable) (id : ℕ)
  /-- the output is in place, or there is none -/
  | placed (job : Purpose) (added : Option TableMeta)
  | deleting (rs : List ℕ)
  /-- an input was found unreferenced and its file is about to go -/
  | unlinking (r : ℕ) (rs : List ℕ)

/-- A table with the bytes of its file. -/
structure PublishedTable where
  info : TableMeta
  file : Bytes

/-- An open store. `objects` are the readers made so far, the last two fields a record of what
happened: the tables the manifest has listed, and the answers given. -/
structure Process where
  config : Config
  cacheIndexBlocks : Bool
  stored : Option Manifest
  files : OrderedMap ℕ Bytes
  manifest : Manifest
  objects : List TableReader
  readers : List ℕ
  active : Memtable
  immutables : List Memtable
  version : Snapshot
  cache : BlockCache
  creator : Progress
  gets : List Lookup
  published : List PublishedTable
  answers : List (Bytes × Except Fault (Option Bytes))

/-- A step of the process. A flag says whether `write_sstable` throws, a fault where `save`
does; `cancel` is a cancellation of the compaction at one of its two checkpoints, and `evict`
the descriptor pool closing the file of a reader. -/
inductive Act where
  | apply (r : Record)
  | rotate
  | flush
  | compact (inputs : Option (List ℕ))
  | merge (now : ℕ)
  | name
  | place (throws : Bool) (now : ℕ)
  | cancel
  | publish (fault : Option SaveFault)
  | nextInput
  | unlink
  | evict (i : ℕ)
  | load (key : Bytes)
  | consult (i : ℕ)

namespace Process

/-! ## Writing -/

/-- The log takes the record. -/
def accepts (r : Record) : Bool :=
  match Wal.checkAppend true r.key r.value with
  | .ok _ => true
  | .error _ => false

def applyRecord (r : Record) (p : Process) : Process :=
  { p with active := p.active.apply r.key r.value r.seqno r.del }

/-- Rotation is due and there is room for one more immutable. -/
def rotates (p : Process) : Bool :=
  p.config.memtableMaxBytes ≤ p.active.bytes ∧ p.immutables.length < p.config.maxImmutableTables

def freeze (p : Process) : Process :=
  { p with
    immutables := p.active :: p.immutables
    active := .fresh p.config.overheadBytesPerEntry }

def publishVersion (p : Process) : Process := { p with version := ⟨p.immutables, p.readers⟩ }

def apply (r : Record) (p : Process) : Option Process :=
  if accepts r then some (p.applyRecord r) else none

def rotate (p : Process) : Option Process :=
  if p.rotates then
    some { p.freeze.publishVersion with gets := p.gets.map (Lookup.keep p.active) }
  else none

/-! ## Flushes and compactions -/

def flush (p : Process) : Option Process :=
  match p.creator with
  | .idle => match p.immutables.getLast? with
    | none => some p
    | some target => some { p with creator := .named .flush target p.manifest.nextSstId }
  | _ => none

def chooseInputs (inputs : Option (List ℕ)) (p : Process) : Option (List ℕ) :=
  match inputs with
  | some ids => (Compaction.explicitInputs p.manifest.tables ids).toOption
  | none => (Compaction.pickCompaction p.config.sizeTieredFanIn p.config.withinRatio
      p.manifest.tables).map (·.ids)

def compact (inputs : Option (List ℕ)) (p : Process) : Option Process :=
  match p.creator with
  | .idle => match p.chooseInputs inputs with
    | none => some p
    | some ids => some { p with creator := .chosen p.manifest.tables ids }
  | _ => none

/-- `scan_sstable` of each table. -/
def scanAll (files : OrderedMap ℕ Bytes) : List TableMeta → Except Fault (List (List Sst.Entry))
  | [] => .ok []
  | t :: ts => match Sst.scanSstable (files.find? t.id) with
    | .error f => .error f
    | .ok rows => match scanAll files ts with
      | .error f => .error f
      | .ok rest => .ok (rows :: rest)

/-- The merge of rows scanned newest table first: those of the oldest go in first. -/
def mergeRows (overhead : ℕ) (inputs : List (List Sst.Entry)) : Memtable :=
  inputs.reverse.foldl (fun m rows => rows.foldl Memtable.applyEntry m) (.fresh overhead)

/-- The rows the output is to hold. -/
def mergeInputs (live : List TableMeta) (ids : List ℕ) (now : ℕ) (p : Process) :
    Except Fault Memtable :=
  let inputs := ids.filterMap (fun id => live.find? (fun t => t.id = id))
  match scanAll p.files inputs with
  | .error f => .error f
  | .ok rows =>
    let drops := Compaction.dropsTombstone p.config.tombstoneGraceSeconds now
      (Compaction.outsideOldestMinSeqno live ids) inputs
    .ok (Memtable.finalTable p.config.overheadBytesPerEntry drops
      (mergeRows p.config.overheadBytesPerEntry rows))

def merge (now : ℕ) (p : Process) : Option Process :=
  match p.creator with
  | .chosen live ids => match p.mergeInputs live ids now with
    | .error _ => some { p with creator := .idle }
    | .ok final =>
      if final.entries = 0 then some { p with creator := .placed (.compaction ids) none }
      else some { p with creator := .merged ids final }
  | _ => none

def name (p : Process) : Option Process :=
  match p.creator with
  | .merged ids final => some { p with
      creator := .named (.compaction ids) final p.manifest.nextSstId }
  | _ => none

/-- `write_sstable`. No file gets longer than an offset can say, and a division by zero ends the
process. -/
def place (throws : Bool) (now : ℕ) (p : Process) : Option Process :=
  match p.creator with
  | .named job mem id =>
    match Sst.writeSstable id mem (p.config.sst mem.entries) with
    | .error .divideByZero => none
    | .error _ => some { p with creator := .idle }
    | .ok (r, file) =>
      if throws ∨ 2 ^ 63 ≤ file.length then some { p with creator := .idle }
      else some { p with
        files := p.files.insert r.id file
        creator := .placed job (some (r.toMeta now)) }
  | _ => none

/-- `cancel_compaction_` is seen before the output is written, or after. -/
def cancel (p : Process) : Option Process :=
  match p.creator with
  | .merged _ _ => some { p with creator := .idle }
  | .placed (.compaction _) none => some { p with creator := .idle }
  | .placed (.compaction _) (some info) => some { p with
      files := p.files.erase info.id
      creator := .idle }
  | _ => none

/-! ## Publishing -/

def save (fault : Option SaveFault) (m : Manifest) (p : Process) : Process × Except Raised Unit :=
  if m.dumps p.config.isUtf8 then match fault with
    | none => ({ p with manifest := m, stored := some m }, .ok ())
    | some f => ({ p with manifest := m }, .error (.error f.error))
  else ({ p with manifest := m }, .error .json)

def newReader (info : TableMeta) (p : Process) : TableReader where
  file := p.files.find? info.id
  info := info
  cacheIndexBlocks := p.cacheIndexBlocks

def infoAt (i : ℕ) (p : Process) : Option TableMeta := p.objects[i]?.map (·.info)

/-- Among `readers_`, the one of a table. -/
def readerOf (t : TableMeta) (p : Process) : Option ℕ :=
  p.readers.find? (fun i => (p.infoAt i).any (fun info => info.id = t.id))

/-- Among `readers_`, those of the inputs. -/
def removed (ids : List ℕ) (p : Process) : List ℕ :=
  p.readers.filter (fun i => (p.infoAt i).any (fun info => info.id ∈ ids))

/-- The loop over the tables of the manifest: a reader is used again, or made. -/
def makeReaders (p : Process) : List TableMeta → List TableReader → List TableReader × List ℕ
  | [], objects => (objects, [])
  | t :: ts, objects => match p.readerOf t with
    | some i => ((makeReaders p ts objects).1, i :: (makeReaders p ts objects).2)
    | none => ((makeReaders p ts (objects ++ [p.newReader t])).1,
        objects.length :: (makeReaders p ts (objects ++ [p.newReader t])).2)

/-- The manifest is about to list the tables. -/
def record (added : Option TableMeta) (p : Process) : Process :=
  { p with published := p.published ++
      added.toList.map (fun t => ⟨t, (p.files.find? t.id).getD []⟩) }

/-- The publishing block of `flush_one`. -/
def publishFlush (fault : Option SaveFault) (info : TableMeta) (p : Process) : Process :=
  match (p.record (some info)).save fault (p.manifest.addTable info) with
  | (p, .error _) => { p with creator := .idle }
  | (p, .ok _) => { p with
      objects := p.objects ++ [p.newReader info]
      readers := p.objects.length :: p.readers
      immutables := p.immutables.dropLast
      creator := .idle }.publishVersion

/-- The publishing block of `run_compaction`. -/
def publishCompaction (fault : Option SaveFault) (ids : List ℕ) (added : Option TableMeta)
    (p : Process) : Process :=
  match (p.record added).save fault (p.manifest.applyCompaction p.config.sort ids added) with
  | (p, .error _) => { p with creator := .idle }
  | (p, .ok _) => { p with
      objects := (p.makeReaders p.manifest.tables p.objects).1
      readers := (p.makeReaders p.manifest.tables p.objects).2
      creator := .deleting (p.removed ids) }.publishVersion

def publish (fault : Option SaveFault) (p : Process) : Option Process :=
  match p.creator with
  | .placed .flush (some info) => some (p.publishFlush fault info)
  | .placed (.compaction ids) added => some (p.publishCompaction fault ids added)
  | _ => none

/-! ## Deleting inputs -/

/-- The current version or one that a get holds on to has the reader. -/
def referenced (i : ℕ) (p : Process) : Bool :=
  (p.version :: p.gets.map (·.snapshot)).any (fun v => i ∈ v.tables)

def nextInput (p : Process) : Option Process :=
  match p.creator with
  | .deleting [] => some { p with creator := .idle }
  | .deleting (i :: rs) =>
    if p.referenced i then some { p with creator := .deleting rs }
    else some { p with creator := .unlinking i rs }
  | _ => none

def unlink (p : Process) : Option Process :=
  match p.creator with
  | .unlinking i rs => some { p with
      files := (p.infoAt i).elim p.files (fun info => p.files.erase info.id)
      creator := .deleting rs }
  | _ => none

/-! ## Reading -/

/-- The pool closes a reader's file. -/
def evict (i : ℕ) (p : Process) : Process :=
  { p with objects := p.objects.modify i (fun r => { r with fileOpen := false }) }

def load (key : Bytes) (p : Process) : Option Process :=
  if key = [] then none
  else some { p with gets := p.gets ++ [⟨key, p.version, none, .active⟩] }

/-- `TableReader::get`, with the caches or without. An open file stays readable when its name
goes. -/
def consultTable (cached : Bool) (key : Bytes) (i : ℕ) (p : Process) :
    Process × Except Fault (Option Sst.TableHit) :=
  match p.objects[i]? with
  | none => (p, .error .outside)
  | some r =>
    let file := if r.fileOpen then r.file else p.files.find? r.info.id
    if cached then
      let out := ReadContext.get key ⟨{ r with file := file }, p.cache, {}, {}⟩
      ({ p with objects := p.objects.set i out.1.reader, cache := out.1.cache }, out.2)
    else (p, Sst.plainGet file r.info key)

/-- The get goes on elsewhere. -/
def resume (i : ℕ) (g : Lookup) (spot : Spot) (p : Process) : Process :=
  { p with gets := p.gets.set i { g with spot := spot } }

/-- The get is through. -/
def answer (i : ℕ) (g : Lookup) (result : Except Fault (Option Bytes)) (p : Process) : Process :=
  { p with
    gets := p.gets.eraseIdx i
    answers := p.answers ++ [(g.key, result)] }

/-- One memtable or one table of a get. -/
def consult (cached : Bool) (i : ℕ) (p : Process) : Option Process :=
  p.gets[i]?.map fun g => match g.spot with
    | .active => match (g.own.getD p.active).find g.key with
      | some hit => p.answer i g (.ok hit.result)
      | none => p.resume i g (.immutables g.snapshot.immutables)
    | .immutables [] => p.resume i g (.tables g.snapshot.tables)
    | .immutables (m :: rest) => match m.find g.key with
      | some hit => p.answer i g (.ok hit.result)
      | none => p.resume i g (.immutables rest)
    | .tables [] => p.answer i g (.ok none)
    | .tables (t :: rest) => match p.consultTable cached g.key t with
      | (p, .error f) => p.answer i g (.error f)
      | (p, .ok (some hit)) => p.answer i g (.ok hit.result)
      | (p, .ok none) => p.resume i g (.tables rest)

/-! ## Runs -/

def step (cached : Bool) (p : Process) : Act → Option Process
  | .apply r => p.apply r
  | .rotate => p.rotate
  | .flush => p.flush
  | .compact inputs => p.compact inputs
  | .merge now => p.merge now
  | .name => p.name
  | .place throws now => p.place throws now
  | .cancel => p.cancel
  | .publish fault => p.publish fault
  | .nextInput => p.nextInput
  | .unlink => p.unlink
  | .evict i => some (p.evict i)
  | .load key => p.load key
  | .consult i => p.consult cached i

/-- The readers of the tables a manifest lists, each with its footer checked. -/
def openReaders (files : OrderedMap ℕ Bytes) (cache_index_blocks : Bool) :
    List TableMeta → Except Raised (List TableReader)
  | [] => .ok []
  | t :: ts => match files.find? t.id with
    | none => .error (.error ⟨.corruptionDetected, "manifest references missing SSTable"⟩)
    | some file => match (TableReader.created file t cache_index_blocks).validateFooter with
      | (_, .error f) => .error (.fault f)
      | (r, .ok _) => match openReaders files cache_index_blocks ts with
        | .error x => .error x
        | .ok rs => .ok (r :: rs)

/-- A record of the log on its way into a memtable. -/
def replayRecord (p : Process) (r : Record) : Process :=
  if (p.applyRecord r).rotates then (p.applyRecord r).freeze else p.applyRecord r

/-- `open` on what an earlier process has left, with the records its log replays. -/
def «open» (config : Config) (cache_index_blocks : Bool) (capacity : ℕ) (rs : List Record)
    (stored : Option Manifest) (files : OrderedMap ℕ Bytes) : Except Raised Process :=
  match Manifest.loadOrCreate config.sort stored with
  | .error x => .error (.error x)
  | .ok m =>
    let files := files.filter (fun id _ => m.tables.any (fun t => t.id = id))
    match openReaders files cache_index_blocks m.tables with
    | .error x => .error x
    | .ok objects => .ok (rs.foldl replayRecord {
        config := config
        cacheIndexBlocks := cache_index_blocks
        stored := stored
        files := files
        manifest := m
        objects := objects
        readers := List.range objects.length
        active := .fresh config.overheadBytesPerEntry
        immutables := []
        version := {}
        cache := { capacity := capacity }
        creator := .idle
        gets := []
        published := m.tables.map (fun t => ⟨t, (files.find? t.id).getD []⟩)
        answers := [] }).publishVersion

end Process

/-! ## Processes one after another -/

/-- A directory at rest, or a process on it. -/
inductive Site where
  | down (stored : Option Manifest) (files : OrderedMap ℕ Bytes)
  | up (p : Process)

/-- A process starts, makes a step, or ends, by whatever means; while none runs, files that a
crash or a start cut short did not leave in place are gone. -/
inductive Event where
  | start (config : Config) (cacheIndexBlocks : Bool) (capacity : ℕ) (rs : List Record)
  | act (a : Act)
  | stop
  | lose (keep : List ℕ)

namespace Site

def step (cached : Bool) : Site → Event → Option Site
  | .down stored files, .start config cache_index_blocks capacity rs =>
    if rs.all Process.accepts then
      match Process.open config cache_index_blocks capacity rs stored files with
      | .error _ => some (.down stored files)
      | .ok p => some (.up p)
    else none
  | .up p, .act a => (p.step cached a).map .up
  | .up p, .stop => some (.down p.stored p.files)
  | .down stored files, .lose keep => some (.down stored (files.filter (fun id _ => id ∈ keep)))
  | _, _ => none

/-- Events one after another, with the caches or without. -/
def performAll (cached : Bool) (s : Site) : List Event → Option Site
  | [] => some s
  | e :: es => (s.step cached e).bind (fun s' => performAll cached s' es)

end Site
end LsmKv
