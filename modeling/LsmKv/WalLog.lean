import LsmKv.Wal

/-!
# The log seen as records

The same operations over files of records instead of bytes: what a segment says once its
framing is taken for granted. A record over the scanner's cap is written like any other and
ends its segment at the next recovery.
-/

namespace LsmKv
namespace WalLog
open WalFormat

/-- The bytes a segment with these records takes on disk. -/
def segmentBytes (rs : List Record) : ℕ :=
  kHeaderSize + (rs.map (fun r => kFrameOverhead + payloadSize r)).sum

def maxSeqno (rs : List Record) : ℕ := rs.foldl (fun m r => max m r.seqno) 0

def Fits (r : Record) : Prop := payloadSize r ≤ kMaxPayload

instance (r : Record) : Decidable (Fits r) := inferInstanceAs (Decidable (_ ≤ _))

/-- The records of a segment that recovery reads: those before the first oversize one. -/
def survivors (rs : List Record) : List Record := rs.takeWhile (fun r => Fits r)

def measure (w : Wal Record) : Wal Record :=
  { w with activeBytes := segmentBytes w.activeFile.data }

def openActiveSegment (id : ℕ) (w : Wal Record) : Wal Record := measure (w.openFile id)

def rollSegment (w : Wal Record) : Wal Record :=
  (openActiveSegment (w.activeId + 1) (w.onActive (·.sync)).closeFile).countRoll

def writeRecord (r : Record) (w : Wal Record) : Wal Record :=
  { w.onActive (·.append [r]) with
    activeBytes := w.activeBytes + (kFrameOverhead + payloadSize r)
    appendsSinceSync := w.appendsSinceSync + 1 }

def syncPolicy (w : Wal Record) : Wal Record :=
  if w.fsyncEveryN ≤ w.appendsSinceSync then w.sync else w

def appendRecord (r : Record) (w : Wal Record) : Wal Record :=
  (syncPolicy (writeRecord r w)).acknowledge r.seqno

/-- `append` with the sequence number it is to hand out. -/
def appendAs (seqno : ℕ) (del : Bool) (key value : Bytes) (w : Wal Record) :
    Wal Record × Except Error ℕ :=
  match Wal.checkAppend w.isOpen key value with
  | .error e => (w, .error e)
  | .ok _ =>
    let r : Record := ⟨del, key, value, seqno⟩
    (appendRecord r (if w.mustRoll r then rollSegment w else w), .ok seqno)

/-- `append` while the 64-bit counter does not wrap; runs that speak of the numbers have that as a
condition of each write. -/
def append (del : Bool) (key value : Bytes) (w : Wal Record) : Wal Record × Except Error ℕ :=
  appendAs (w.lastSeqno + 1) del key value w

def roll (w : Wal Record) : Wal Record × Except Error ℕ :=
  if !w.isOpen then (w, .error ⟨.storeClosed, "WAL is not open"⟩)
  else ((rollSegment w), .ok (rollSegment w).activeId)

def repair (f : DurableFile Record) : DurableFile Record :=
  f.truncate (survivors f.data).length

/-- The records on disk, oldest segment first. -/
def records (dir : OrderedMap ℕ (DurableFile Record)) : List Record :=
  dir.entries.flatMap (fun p => p.2.data)

/-- The state recovery starts from once it has cut the segments to what it can read. -/
def recovered (dir : OrderedMap ℕ (DurableFile Record)) (w : Wal Record) : Wal Record :=
  { w with
    dir := dir
    segmentMaxSeqno := dir.entries.foldl
      (fun m p => m.insert p.1 (maxSeqno p.2.data)) w.segmentMaxSeqno
    lastSeqno := maxSeqno (records dir)
    totalSegments := dir.entries.length }

/-- Recovery, with the records it replays. -/
def «open» (w : Wal Record) : Wal Record × List Record :=
  let dir := w.dir.map repair
  let w := recovered dir w
  match dir.entries.getLast? with
  | none => ({ openActiveSegment 1 w with totalSegments := 1 }, records dir)
  | some (id, _) => (openActiveSegment id w, records dir)

theorem open_snd (w : Wal Record) : (WalLog.open w).2 = records (w.dir.map repair) := by
  unfold WalLog.open
  dsimp only
  split <;> rfl

/-! ## The greatest sequence number -/

theorem foldl_max (rs : List Record) (m : ℕ) :
    rs.foldl (fun m r => max m r.seqno) m = max m (maxSeqno rs) := by
  induction rs generalizing m with
  | nil => simp [maxSeqno]
  | cons r rs ih =>
    rw [maxSeqno, List.foldl_cons, List.foldl_cons, ih, ih (max 0 r.seqno)]
    omega

theorem maxSeqno_append (rs ts : List Record) :
    maxSeqno (rs ++ ts) = max (maxSeqno rs) (maxSeqno ts) := by
  rw [maxSeqno, List.foldl_append, foldl_max]
  rfl

theorem maxSeqno_cons (r : Record) (rs : List Record) :
    maxSeqno (r :: rs) = max r.seqno (maxSeqno rs) := by
  rw [maxSeqno, List.foldl_cons, foldl_max, Nat.zero_max]

theorem le_maxSeqno {rs : List Record} {r : Record} (h : r ∈ rs) : r.seqno ≤ maxSeqno rs := by
  induction rs with
  | nil => cases h
  | cons a rs ih =>
    rw [maxSeqno_cons]
    rcases List.mem_cons.mp h with rfl | h
    · exact le_max_left _ _
    · exact (ih h).trans (le_max_right _ _)

theorem maxSeqno_le {rs : List Record} {m : ℕ} (h : ∀ r ∈ rs, r.seqno ≤ m) : maxSeqno rs ≤ m := by
  induction rs with
  | nil => exact Nat.zero_le m
  | cons a rs ih =>
    rw [maxSeqno_cons]
    exact max_le (h a List.mem_cons_self) (ih (fun r hr => h r (List.mem_cons_of_mem _ hr)))

/-- The record that comes last in sequence has the greatest number. -/
theorem maxSeqno_snoc {rs : List Record} {r : Record} (h : ∀ a ∈ rs, a.seqno ≤ r.seqno) :
    maxSeqno (rs ++ [r]) = r.seqno := by
  rw [maxSeqno_append, maxSeqno_cons]
  have := maxSeqno_le h
  have h₀ : maxSeqno [] = 0 := rfl
  omega

/-! ## What each operation does to the newest segment -/

@[simp] theorem segmentBytes_nil : segmentBytes [] = kHeaderSize := rfl

theorem ends_rollSegment {w : Wal Record} {pre f} (h : w.Ends pre f) :
    (rollSegment w).Ends (pre ++ [(w.activeId, f.sync)]) .new := by
  have h₁ : (w.onActive (·.sync)).closeFile.Ends pre f.sync := h.onActive (·.sync)
  exact h₁.openFile

@[simp] theorem rollSegment_activeId (w : Wal Record) :
    (rollSegment w).activeId = w.activeId + 1 := rfl
@[simp] theorem rollSegment_isOpen (w : Wal Record) : (rollSegment w).isOpen = true := rfl
@[simp] theorem rollSegment_lastSeqno (w : Wal Record) :
    (rollSegment w).lastSeqno = w.lastSeqno := rfl
@[simp] theorem rollSegment_fsyncEveryN (w : Wal Record) :
    (rollSegment w).fsyncEveryN = w.fsyncEveryN := rfl
@[simp] theorem rollSegment_segmentMaxSeqno (w : Wal Record) :
    (rollSegment w).segmentMaxSeqno = w.segmentMaxSeqno := rfl
@[simp] theorem rollSegment_appendsSinceSync (w : Wal Record) :
    (rollSegment w).appendsSinceSync = 0 := rfl

/-- What the active file becomes when one record is appended under the sync policy. -/
def appended (w : Wal Record) (r : Record) (f : DurableFile Record) : DurableFile Record :=
  if w.fsyncEveryN ≤ w.appendsSinceSync + 1 then (f.append [r]).sync else f.append [r]

theorem data_appended (w : Wal Record) (r : Record) (f : DurableFile Record) :
    (appended w r f).data = f.data ++ [r] := by
  unfold appended
  split <;> simp

theorem syncPolicy_writeRecord (r : Record) (w : Wal Record) :
    syncPolicy (writeRecord r w) =
      if w.fsyncEveryN ≤ w.appendsSinceSync + 1 then (writeRecord r w).sync
      else writeRecord r w := rfl

theorem ends_writeRecord {w : Wal Record} {pre f} (h : w.Ends pre f) (r : Record) :
    (writeRecord r w).Ends pre (f.append [r]) := h.onActive (·.append [r])

theorem ends_appendRecord {w : Wal Record} {pre f} (h : w.Ends pre f) (r : Record) :
    (appendRecord r w).Ends pre (appended w r f) := by
  have hw := ends_writeRecord h r
  show (syncPolicy (writeRecord r w)).Ends pre (appended w r f)
  rw [syncPolicy_writeRecord, appended]
  split
  · exact hw.sync
  · exact hw

@[simp] theorem appendRecord_activeId (r : Record) (w : Wal Record) :
    (appendRecord r w).activeId = w.activeId := by
  show (syncPolicy (writeRecord r w)).activeId = _
  rw [syncPolicy_writeRecord]
  split <;> rfl
@[simp] theorem appendRecord_isOpen (r : Record) (w : Wal Record) :
    (appendRecord r w).isOpen = w.isOpen := by
  show (syncPolicy (writeRecord r w)).isOpen = _
  rw [syncPolicy_writeRecord]
  split <;> rfl
@[simp] theorem appendRecord_lastSeqno (r : Record) (w : Wal Record) :
    (appendRecord r w).lastSeqno = r.seqno := rfl
@[simp] theorem appendRecord_fsyncEveryN (r : Record) (w : Wal Record) :
    (appendRecord r w).fsyncEveryN = w.fsyncEveryN := by
  show (syncPolicy (writeRecord r w)).fsyncEveryN = _
  rw [syncPolicy_writeRecord]
  split <;> rfl
@[simp] theorem appendRecord_activeBytes (r : Record) (w : Wal Record) :
    (appendRecord r w).activeBytes = w.activeBytes + (kFrameOverhead + payloadSize r) := by
  show (syncPolicy (writeRecord r w)).activeBytes = _
  rw [syncPolicy_writeRecord]
  split <;> rfl
@[simp] theorem appendRecord_segmentMaxSeqno (r : Record) (w : Wal Record) :
    (appendRecord r w).segmentMaxSeqno = w.segmentMaxSeqno.insert w.activeId r.seqno := by
  show (syncPolicy (writeRecord r w)).segmentMaxSeqno.insert
    (syncPolicy (writeRecord r w)).activeId r.seqno = _
  rw [syncPolicy_writeRecord]
  split <;> rfl
theorem appendRecord_appendsSinceSync (r : Record) (w : Wal Record) :
    (appendRecord r w).appendsSinceSync =
      if w.fsyncEveryN ≤ w.appendsSinceSync + 1 then 0 else w.appendsSinceSync + 1 := by
  show (syncPolicy (writeRecord r w)).appendsSinceSync = _
  rw [syncPolicy_writeRecord]
  split <;> rfl

/-! ## The records of an open log -/

theorem records_of_ends {l : Wal Record} {pre f} (h : l.Ends pre f) :
    records l.dir = pre.flatMap (fun p => p.2.data) ++ f.data := by
  rw [records, h, List.flatMap_append]
  simp

/-- The records of each segment, the active one last. -/
def segments (dir : OrderedMap ℕ (DurableFile Record)) : List (List Record) :=
  dir.entries.map (fun p => p.2.data)

theorem flatten_segments (dir : OrderedMap ℕ (DurableFile Record)) :
    (segments dir).flatten = records dir := List.flatMap_def.symm

theorem segments_of_ends {l : Wal Record} {pre f} (h : l.Ends pre f) :
    segments l.dir = pre.map (fun p => p.2.data) ++ [f.data] := by
  rw [segments, h, List.map_append]
  rfl

/-- Every segment but the newest is on stable storage. -/
def Live (l : Wal Record) : Prop :=
  ∃ pre f, l.Ends pre f ∧ ∀ p ∈ pre, p.2 = .durable p.2.data

theorem Live.rollSegment {l : Wal Record} (h : Live l) : Live (rollSegment l) := by
  obtain ⟨pre, f, he, hp⟩ := h
  refine ⟨_, _, ends_rollSegment he, fun p hmem => ?_⟩
  rcases List.mem_append.mp hmem with hmem | hmem
  · exact hp p hmem
  · obtain rfl := List.mem_singleton.mp hmem
    rfl

theorem Live.appendRecord {l : Wal Record} (h : Live l) (r : Record) :
    Live (appendRecord r l) := by
  obtain ⟨pre, f, he, hp⟩ := h
  exact ⟨pre, _, ends_appendRecord he r, hp⟩

theorem records_rollSegment {l : Wal Record} (h : Live l) :
    records (WalLog.rollSegment l).dir = records l.dir := by
  obtain ⟨pre, f, he, -⟩ := h
  rw [records_of_ends (ends_rollSegment he), records_of_ends he, List.flatMap_append]
  simp [DurableFile.new]

theorem records_appendRecord {l : Wal Record} (h : Live l) (r : Record) :
    records (WalLog.appendRecord r l).dir = records l.dir ++ [r] := by
  obtain ⟨pre, f, he, -⟩ := h
  rw [records_of_ends (ends_appendRecord he r), records_of_ends he, data_appended,
    List.append_assoc]

/-- What an accepted append does, whichever segment it goes to. -/
theorem appendAs_ok {l : Wal Record} (h : Live l) (del : Bool) {key value : Bytes}
    (hc : Wal.checkAppend l.isOpen key value = .ok ()) (seqno : ℕ) :
    (appendAs seqno del key value l).2 = .ok seqno ∧
      Live (appendAs seqno del key value l).1 ∧
      records (appendAs seqno del key value l).1.dir =
        records l.dir ++ [⟨del, key, value, seqno⟩] ∧
      (appendAs seqno del key value l).1.isOpen = l.isOpen ∧
      (appendAs seqno del key value l).1.lastSeqno = seqno := by
  have hopen : l.isOpen = true := by
    rcases ho : l.isOpen with _ | _
    · simp [Wal.checkAppend, ho] at hc
    · rfl
  simp only [appendAs, hc]
  split
  · refine ⟨trivial, h.rollSegment.appendRecord _, ?_, ?_, rfl⟩
    · rw [records_appendRecord h.rollSegment, records_rollSegment h]
    · rw [appendRecord_isOpen, rollSegment_isOpen, hopen]
  · refine ⟨trivial, h.appendRecord _, records_appendRecord h _, ?_, rfl⟩
    rw [appendRecord_isOpen]

end WalLog
end LsmKv
