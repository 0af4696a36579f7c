import LsmKv.Errors
import LsmKv.OrderedMap
import LsmKv.WalFormat

/-!
# The write-ahead log

`Wal` is the process state of one log together with the directory it writes to. The files
hold bytes here and records in the record-level log; what does not look inside a file is
written once for both. The data of a file are what stdio was handed for it; how much of what is
not synced is still in stdio's buffer is left open. A directory maps segment numbers to files. From
twelve digits on the name of a segment is cut and the directory no longer lists it; the operations
here are given what is listed.
-/

namespace LsmKv
open WalFormat

/-- What WAL replay found on startup. -/
structure WalRecoveryReport where
  segments : ℕ := 0
  records : ℕ := 0
  truncated : ℕ := 0
  lastSeqno : ℕ := 0
  truncatedSegment : Option ℕ := none
  truncatedTo : ℕ := 0
  deriving DecidableEq, Repr

structure Wal (α : Type) where
  dir : OrderedMap ℕ (DurableFile α)
  fsyncEveryN : ℕ
  rollBytes : ℕ
  isOpen : Bool
  segmentMaxSeqno : OrderedMap ℕ ℕ
  activeId : ℕ
  activeBytes : ℕ
  totalSegments : ℕ
  lastSeqno : ℕ
  appendsSinceSync : ℕ

namespace Wal

variable {α : Type}

/-- A log object before `open`, over the given directory. -/
def create (dir : OrderedMap ℕ (DurableFile α)) (fsync_every_n roll_bytes : ℕ) : Wal α where
  dir := dir
  fsyncEveryN := if fsync_every_n = 0 then 1 else fsync_every_n
  rollBytes := roll_bytes
  isOpen := false
  segmentMaxSeqno := ∅
  activeId := 0
  activeBytes := 0
  totalSegments := 0
  lastSeqno := 0
  appendsSinceSync := 0

def activeFile (w : Wal α) : DurableFile α := (w.dir.find? w.activeId).getD .new

def onActive (f : DurableFile α → DurableFile α) (w : Wal α) : Wal α :=
  { w with dir := w.dir.insert w.activeId (f w.activeFile) }

@[simp] theorem activeFile_onActive (g : DurableFile α → DurableFile α) (w : Wal α) :
    (w.onActive g).activeFile = g w.activeFile := by
  show (((w.dir.insert w.activeId (g w.activeFile)).find? w.activeId).getD .new) = _
  rw [OrderedMap.find?_insert_self, Option.getD_some]

theorem onActive_onActive (g g' : DurableFile α → DurableFile α) (w : Wal α) :
    (w.onActive g).onActive g' = w.onActive (fun f => g' (g f)) := by
  have hdir : (w.dir.insert w.activeId (g w.activeFile)).insert w.activeId
      (g' (w.onActive g).activeFile) = w.dir.insert w.activeId (g' (g w.activeFile)) := by
    rw [activeFile_onActive, OrderedMap.insert_insert]
  simp only [onActive] at hdir ⊢
  rw [hdir]

/-- `fopen` for append of segment `id`, which creates it if need be. -/
def openFile (id : ℕ) (w : Wal α) : Wal α :=
  { w with isOpen := true, activeId := id }.onActive (fun f => f)

theorem find?_openFile (id : ℕ) (w : Wal α) :
    (w.openFile id).dir.find? id = some ((w.dir.find? id).getD .new) :=
  OrderedMap.find?_insert_self _ _ _

theorem dir_openFile {id : ℕ} {w : Wal α} {f : DurableFile α} (h : w.dir.find? id = some f) :
    (w.openFile id).dir = w.dir := by
  show w.dir.insert id ((w.dir.find? id).getD .new) = w.dir
  rw [h]
  exact OrderedMap.insert_find? h

def closeFile (w : Wal α) : Wal α := { w with isOpen := false }

def sync (w : Wal α) : Wal α := { w.onActive DurableFile.sync with appendsSinceSync := 0 }

/-- The end of a successful `append`. -/
def acknowledge (seqno : ℕ) (w : Wal α) : Wal α :=
  { w with
    lastSeqno := seqno
    segmentMaxSeqno := w.segmentMaxSeqno.insert w.activeId seqno }

/-- The active segment holds `f` and is the newest. -/
def Ends (w : Wal α) (pre : List (ℕ × DurableFile α)) (f : DurableFile α) : Prop :=
  w.dir.entries = pre ++ [(w.activeId, f)]

theorem Ends.activeFile {w : Wal α} {pre f} (h : w.Ends pre f) : w.activeFile = f := by
  rw [Wal.activeFile, OrderedMap.find?_last h, Option.getD_some]

theorem Ends.onActive {w : Wal α} {pre f} (h : w.Ends pre f)
    (g : DurableFile α → DurableFile α) : (w.onActive g).Ends pre (g f) := by
  show (w.dir.insert w.activeId (g w.activeFile)).entries = _
  rw [h.activeFile]
  exact OrderedMap.entries_insert_last _ h

theorem Ends.lt {w : Wal α} {pre f} (h : w.Ends pre f) : ∀ p ∈ pre, p.1 < w.activeId :=
  OrderedMap.lt_last h

theorem Ends.sync {w : Wal α} {pre f} (h : w.Ends pre f) : w.sync.Ends pre f.sync :=
  h.onActive DurableFile.sync

theorem Ends.lt_next {w : Wal α} {pre f} (h : w.Ends pre f) :
    ∀ p ∈ w.dir.entries, p.1 < w.activeId + 1 := by
  intro p hp
  rw [h] at hp
  rcases List.mem_append.mp hp with hp | hp
  · have := h.lt p hp
    omega
  · obtain rfl := List.mem_singleton.mp hp
    exact Nat.lt_succ_self _

theorem Ends.next_none {w : Wal α} {pre f} (h : w.Ends pre f) :
    w.dir.find? (w.activeId + 1) = none :=
  OrderedMap.find?_eq_none_iff.mpr (fun p hp => (h.lt_next p hp).ne)

/-- Opening the next number for append puts an empty newest segment. -/
theorem Ends.openFile {w : Wal α} {pre f} (h : w.Ends pre f) :
    (w.openFile (w.activeId + 1)).Ends (pre ++ [(w.activeId, f)]) .new := by
  show (w.dir.insert (w.activeId + 1) _).entries = _
  rw [OrderedMap.entries_insert_of_lt _ h.lt_next, h]
  simp only [Wal.activeFile, h.next_none, Option.getD_none]
  rfl

def bumpSeqno (floor : ℕ) (w : Wal α) : Wal α :=
  { w with lastSeqno := max w.lastSeqno floor }

def close (w : Wal α) : Wal α := if w.isOpen then w.sync.closeFile else w

/-- The test `remove_segments_covered` makes of each listed segment. -/
def covered (w : Wal α) (watermark id : ℕ) : Bool :=
  id ≠ w.activeId && match w.segmentMaxSeqno.find? id with
    | none => false
    | some m => m ≤ watermark

def removeStep (watermark : ℕ) (w : Wal α) (id : ℕ) : Wal α :=
  if w.covered watermark id then
    { w with dir := w.dir.erase id, segmentMaxSeqno := w.segmentMaxSeqno.erase id }
  else w

/-- The log when the removal is cut short after `n` listed segments. -/
def removeFirst (watermark n : ℕ) (w : Wal α) : Wal α :=
  (w.dir.keys.take n).foldl (removeStep watermark) w

def removeSegmentsCovered (watermark : ℕ) (w : Wal α) : Wal α × List ℕ :=
  (w.dir.keys.foldl (removeStep watermark) w, w.dir.keys.filter (w.covered watermark))

/-- Where an operation on the log is cut short, by a failing call or by a crash. -/
inductive Cut where
  | never
  /-- in the flush before the old segment is synced by a roll, which loses that many bytes -/
  | rollFlush (lost : ℕ)
  /-- before the old segment is synced by a roll -/
  | rollSync
  /-- before the new segment is created -/
  | rollOpen
  /-- with that many bytes of the new segment's header written -/
  | header (n : ℕ)
  /-- in the flush of the new header, with that many bytes of it written -/
  | headerFlush (n : ℕ)
  /-- before the new header is synced -/
  | headerSync
  /-- with that many bytes of the record written -/
  | record (n : ℕ)
  /-- in the write of the record, which empties stdio's buffer and loses that many bytes -/
  | recordSpill (lost : ℕ)
  /-- in the flush before the record is synced, which loses that many bytes -/
  | recordFlush (lost : ℕ)
  /-- before the record is synced -/
  | recordSync
  deriving DecidableEq, Repr

def ioFailure (message : String) : Error := ⟨.ioFailure, message⟩

structure SegmentScan where
  records : ℕ := 0
  maxSeqno : ℕ := 0
  goodBytes : ℕ := 0
  clean : Bool := true
  deriving DecidableEq, Repr

/-- The loop of `scan_segment`, with the records it hands to the replay function. -/
def scanRecords : ℕ → Bytes → SegmentScan → SegmentScan × List Record
  | 0, _, result => (result, [])
  | n + 1, b, result =>
    if b = [] then (result, [])
    else match readFrame b with
      | none => ({ result with clean := false }, [])
      | some (r, rest) =>
        let next := scanRecords n rest { result with
          records := result.records + 1
          maxSeqno := max result.maxSeqno r.seqno
          goodBytes := result.goodBytes + (kFrameOverhead + payloadSize r) }
        (next.1, r :: next.2)

def badHeader (b : Bytes) : Bool :=
  (b.take kHeaderSize).length ≠ kHeaderSize || b.take 4 ≠ kMagic || b[4]? ≠ some kVersion

def scanSegment (b : Bytes) : SegmentScan × List Record :=
  if badHeader b then ({ clean := false, goodBytes := 0 }, [])
  else scanRecords b.length (b.drop kHeaderSize) { goodBytes := kHeaderSize }

/-- What `scan_all` has collected: the report, the maxima, the directory, the replay. -/
structure ScanAll where
  report : WalRecoveryReport
  segMax : OrderedMap ℕ ℕ
  dir : OrderedMap ℕ (DurableFile UInt8)
  replayed : List Record

def scanReport (report : WalRecoveryReport) (p : ℕ × DurableFile UInt8) : WalRecoveryReport :=
  let scan := (scanSegment p.2.data).1
  let report := { report with
    segments := report.segments + 1
    records := report.records + scan.records
    lastSeqno := max report.lastSeqno scan.maxSeqno }
  if scan.clean then report
  else { report with
    truncated := report.truncated + 1
    truncatedSegment := some p.1
    truncatedTo := scan.goodBytes }

/-- What `scan_all` does to one segment when it truncates. -/
def repair (f : DurableFile UInt8) : DurableFile UInt8 :=
  let scan := (scanSegment f.data).1
  if scan.clean then f else f.truncate scan.goodBytes

/-- `scan_all`: the segments oldest to newest, each on its own. -/
def scanAll (truncate : Bool) (dir : OrderedMap ℕ (DurableFile UInt8))
    (segMax : OrderedMap ℕ ℕ) : ScanAll where
  report := dir.entries.foldl scanReport {}
  segMax := dir.entries.foldl (fun m p => m.insert p.1 (scanSegment p.2.data).1.maxSeqno) segMax
  dir := if truncate then dir.map repair else dir
  replayed := dir.entries.flatMap (fun p => (scanSegment p.2.data).2)

/-- The directory when `scan_all` is cut short after `n` segments. -/
def repairFirst (n : ℕ) (dir : OrderedMap ℕ (DurableFile UInt8)) :
    OrderedMap ℕ (DurableFile UInt8) :=
  dir.mapKeyed (fun id f => if id ∈ dir.keys.take n then repair f else f)

/-- `Wal::verify`: what recovery would do, without changing anything. -/
def verify (dir : OrderedMap ℕ (DurableFile UInt8)) : WalRecoveryReport :=
  (scanAll false dir ∅).report

/-- `active_bytes_` as `fs::file_size` reports it. -/
def measure (w : Wal UInt8) : Wal UInt8 := { w with activeBytes := w.activeFile.data.length }

def openActiveSegment (cut : Cut) (id : ℕ) (fresh : Bool) (w : Wal UInt8) :
    Wal UInt8 × Except Error Unit :=
  if cut = .rollOpen then (w, .error (ioFailure "cannot open WAL segment"))
  else
    let w := w.openFile id
    if fresh then match cut with
      | .header n => (w.onActive (·.append (header.take n)),
          .error (ioFailure "cannot write WAL header"))
      | .headerFlush n => (w.onActive (·.append (header.take n)),
          .error (ioFailure "fflush failed"))
      | .headerSync => (w.onActive (·.append header), .error (ioFailure "fsync failed"))
      | _ => (((w.onActive (·.append header)).onActive (·.sync)).measure, .ok ())
    else (w.measure, .ok ())

/-- The end of `roll_segment`. -/
def countRoll (w : Wal α) : Wal α :=
  { w with totalSegments := w.totalSegments + 1, appendsSinceSync := 0 }

def rollSegment (cut : Cut) (w : Wal UInt8) : Wal UInt8 × Except Error Unit :=
  match cut with
  | .rollFlush lost => (w.onActive (·.lose lost), .error (ioFailure "fflush failed"))
  | .rollSync => (w, .error (ioFailure "fsync failed"))
  | _ => match openActiveSegment cut (w.activeId + 1) true (w.onActive (·.sync)).closeFile with
    | (w, .error e) => (w, .error e)
    | (w, .ok _) => (w.countRoll, .ok ())

/-- The log once `open` has scanned its directory. -/
def scanned (w : Wal UInt8) : Wal UInt8 :=
  let s := scanAll true w.dir w.segmentMaxSeqno
  { w with
    dir := s.dir
    segmentMaxSeqno := s.segMax
    lastSeqno := s.report.lastSeqno
    totalSegments := s.report.segments }

/-- `Wal::open`, with the records it replays. -/
def «open» (cut : Cut) (w : Wal UInt8) :
    Wal UInt8 × Except Error (WalRecoveryReport × List Record) :=
  let s := scanAll true w.dir w.segmentMaxSeqno
  match w.scanned.dir.entries.getLast? with
  | none => match openActiveSegment cut 1 true w.scanned with
    | (w, .error e) => (w, .error e)
    | (w, .ok _) => ({ w with totalSegments := 1 }, .ok (s.report, s.replayed))
  | some (id, f) => match openActiveSegment cut id (f.data.length < kHeaderSize) w.scanned with
    | (w, .error e) => (w, .error e)
    | (w, .ok _) => (w, .ok (s.report, s.replayed))

/-- The `fwrite` of `append` and the two counters it moves. -/
def writeRecord (r : Record) (w : Wal UInt8) : Wal UInt8 :=
  { w.onActive (·.append (frame r)) with
    activeBytes := w.activeBytes + (frame r).length
    appendsSinceSync := w.appendsSinceSync + 1 }

/-- The part of `append` after the roll decision: write, sync per policy, acknowledge. -/
def appendRecord (cut : Cut) (r : Record) (w : Wal UInt8) : Wal UInt8 × Except Error ℕ :=
  match cut with
  | .record n => (w.onActive (·.append ((frame r).take n)),
      .error (ioFailure "cannot append WAL record"))
  | .recordSpill lost => (w.onActive (fun f => (f.append (frame r)).lose lost),
      .error (ioFailure "cannot append WAL record"))
  | _ =>
    let w := w.writeRecord r
    if w.fsyncEveryN ≤ w.appendsSinceSync then match cut with
      | .recordFlush lost => (w.onActive (·.lose lost), .error (ioFailure "fflush failed"))
      | .recordSync => (w, .error (ioFailure "fsync failed"))
      | _ => (w.sync.acknowledge r.seqno, .ok r.seqno)
    else (w.acknowledge r.seqno, .ok r.seqno)

/-- The argument checks of `append`, in the order the source makes them. -/
def checkAppend (isOpen : Bool) (key value : Bytes) : Except Error Unit :=
  if !isOpen then .error ⟨.storeClosed, "WAL is not open"⟩
  else if key = [] then .error ⟨.invalidArgument, "empty key is not allowed"⟩
  else if kMaxPayload < key.length ∨ kMaxPayload < value.length then
    .error ⟨.invalidArgument, "key/value exceeds 1 GiB limit"⟩
  else .ok ()

def nextRecord (w : Wal α) (del : Bool) (key value : Bytes) : Record :=
  ⟨del, key, value, (w.lastSeqno + 1) % 2 ^ 64⟩

/-- Whether `append` starts a new segment before writing `r`. -/
def mustRoll (w : Wal α) (r : Record) : Bool :=
  kHeaderSize < w.activeBytes && w.rollBytes < w.activeBytes + (kFrameOverhead + payloadSize r)

def append (cut : Cut) (del : Bool) (key value : Bytes) (w : Wal UInt8) :
    Wal UInt8 × Except Error ℕ :=
  match checkAppend w.isOpen key value with
  | .error e => (w, .error e)
  | .ok _ =>
    let r := w.nextRecord del key value
    if w.mustRoll r then match rollSegment cut w with
      | (w, .error e) => (w, .error e)
      | (w, .ok _) => appendRecord cut r w
    else appendRecord cut r w

def appendPut (cut : Cut) (key value : Bytes) (w : Wal UInt8) : Wal UInt8 × Except Error ℕ :=
  append cut false key value w

def appendDel (cut : Cut) (key : Bytes) (w : Wal UInt8) : Wal UInt8 × Except Error ℕ :=
  append cut true key [] w

def roll (cut : Cut) (w : Wal UInt8) : Wal UInt8 × Except Error ℕ :=
  if !w.isOpen then (w, .error ⟨.storeClosed, "WAL is not open"⟩)
  else match rollSegment cut w with
    | (w, .error e) => (w, .error e)
    | (w, .ok _) => (w, .ok w.activeId)

end Wal
end LsmKv
