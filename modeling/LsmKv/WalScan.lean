import LsmKv.WalLog
import Mathlib.Data.List.TakeWhile

/-!
# What the segment scanner reads

A segment a writer has produced is a header, whole frames and a tail that is not a frame, or
a header that was cut short. The scanner reads the frames back, counts the bytes before the
tail, and truncation leaves exactly the frames.
-/

namespace LsmKv
open WalFormat WalLog

/-- The bytes of a segment that holds these records. -/
def segmentData (rs : List Record) : Bytes := header ++ codec.encodeAll rs

@[simp] theorem length_encodeAll (rs : List Record) :
    (codec.encodeAll rs).length = (rs.map (fun r => kFrameOverhead + payloadSize r)).sum := by
  induction rs with
  | nil => rfl
  | cons r rs ih =>
    rw [FrameCodec.encodeAll_cons, List.length_append, ih, List.map_cons, List.sum_cons]
    exact congrArg (· + _) (length_frame r)

@[simp] theorem length_segmentData (rs : List Record) :
    (segmentData rs).length = segmentBytes rs := by
  simp [segmentData, segmentBytes]

theorem segmentData_append (rs ts : List Record) :
    segmentData (rs ++ ts) = segmentData rs ++ codec.encodeAll ts := by
  simp [segmentData]

theorem segmentData_snoc (rs : List Record) (r : Record) :
    segmentData (rs ++ [r]) = segmentData rs ++ frame r := by
  rw [segmentData_append]
  simp [codec]

theorem badHeader_segmentData (rs : List Record) (tail : Bytes) :
    Wal.badHeader (segmentData rs ++ tail) = false := by
  simp [Wal.badHeader, segmentData, header, kMagic, kHeaderSize]

theorem drop_segmentData (rs : List Record) (tail : Bytes) :
    (segmentData rs ++ tail).drop kHeaderSize = codec.encodeAll rs ++ tail := by
  rw [segmentData, List.append_assoc]
  exact List.drop_left' rfl

theorem badHeader_short {b : Bytes} (h : b.length < kHeaderSize) : Wal.badHeader b = true := by
  simp [Wal.badHeader, h]

/-- The loop of the scanner, run to its end, collects the frames of `codec.scan`. -/
theorem scanRecords_eq {n : ℕ} {b : Bytes} (hn : b.length ≤ n) (k m g : ℕ) :
    Wal.scanRecords n b ⟨k, m, g, true⟩ =
      ({ records := k + (codec.scan b).1.length
         maxSeqno := (codec.scan b).1.foldl (fun m r => max m r.seqno) m
         goodBytes := g + (codec.encodeAll (codec.scan b).1).length
         clean := (codec.scan b).2 = [] }, (codec.scan b).1) := by
  induction n generalizing b k m g with
  | zero =>
    obtain rfl : b = [] := List.length_eq_zero_iff.mp (by omega)
    simp [Wal.scanRecords, codec.scan_of_read_none codec.read_nil]
  | succ n ih =>
    rw [Wal.scanRecords]
    split_ifs with hb
    · subst hb
      simp [codec.scan_of_read_none codec.read_nil]
    · rcases hr : readFrame b with _ | ⟨r, rest⟩
      · rw [codec.scan_of_read_none hr]
        simp [hb]
      · have hlt : rest.length < b.length := codec.read_length hr
        have hrest : rest.length ≤ n := by omega
        rw [codec.scan_of_read_some hr]
        simp only [ih hrest, List.length_cons, List.foldl_cons, FrameCodec.encodeAll_cons,
          List.length_append]
        have hf : (codec.encode r).length = kFrameOverhead + payloadSize r := length_frame r
        rw [hf]
        simp only [Nat.add_assoc, Nat.add_comm 1]

/-- What is read from a segment is what the frame scan finds behind a good header. -/
theorem scanSegment_eq {b : Bytes} (h : Wal.badHeader b = false) :
    Wal.scanSegment b =
      ({ records := (codec.scan (b.drop kHeaderSize)).1.length
         maxSeqno := maxSeqno (codec.scan (b.drop kHeaderSize)).1
         goodBytes := kHeaderSize + (codec.encodeAll (codec.scan (b.drop kHeaderSize)).1).length
         clean := (codec.scan (b.drop kHeaderSize)).2 = [] },
        (codec.scan (b.drop kHeaderSize)).1) := by
  have hlen : (b.drop kHeaderSize).length ≤ b.length := by
    rw [List.length_drop]
    omega
  rw [Wal.scanSegment, h, if_neg (by simp), scanRecords_eq hlen, Nat.zero_add]
  rfl

/-- A segment with a good header, read to its first unreadable place. -/
def Reads (b : Bytes) (rs : List Record) : Prop :=
  (∀ r ∈ rs, Readable r) ∧ ∃ tail, b = segmentData rs ++ tail ∧ readFrame tail = none

/-- A segment whose header was cut short. -/
def Short (b : Bytes) : Prop := b.length < kHeaderSize

theorem reads_segmentData {rs : List Record} (h : ∀ r ∈ rs, Readable r) :
    Reads (segmentData rs) rs := ⟨h, [], by simp, codec.read_nil⟩

theorem Reads.not_short {b : Bytes} {rs : List Record} (h : Reads b rs) : ¬Short b := by
  obtain ⟨-, tail, rfl, -⟩ := h
  simp only [Short, List.length_append, length_segmentData, segmentBytes]
  omega

theorem scanSegment_tail {rs : List Record} (h : ∀ r ∈ rs, Readable r) {tail : Bytes}
    (ht : readFrame tail = none) :
    Wal.scanSegment (segmentData rs ++ tail) =
      (⟨rs.length, maxSeqno rs, segmentBytes rs, tail = []⟩, rs) := by
  have hscan : codec.scan (codec.encodeAll rs ++ tail) = (rs, tail) := codec.scan_encodeAll h ht
  rw [scanSegment_eq (badHeader_segmentData rs tail), drop_segmentData, hscan, segmentBytes,
    length_encodeAll]

theorem scanSegment_short {b : Bytes} (h : Short b) :
    Wal.scanSegment b = ({ clean := false, goodBytes := 0 }, []) := by
  rw [Wal.scanSegment, badHeader_short h, if_pos rfl]

theorem Reads.replay {b : Bytes} {rs : List Record} (h : Reads b rs) :
    (Wal.scanSegment b).2 = rs := by
  obtain ⟨hr, tail, rfl, ht⟩ := h
  rw [scanSegment_tail hr ht]

theorem Reads.maxSeqno {b : Bytes} {rs : List Record} (h : Reads b rs) :
    (Wal.scanSegment b).1.maxSeqno = WalLog.maxSeqno rs := by
  obtain ⟨hr, tail, rfl, ht⟩ := h
  rw [scanSegment_tail hr ht]

theorem Reads.clean_iff {b : Bytes} {rs : List Record} (h : Reads b rs) :
    (Wal.scanSegment b).1.clean = true ↔ b = segmentData rs := by
  obtain ⟨hr, tail, rfl, ht⟩ := h
  rw [scanSegment_tail hr ht]
  simp

/-- Truncation leaves the frames that were read. -/
theorem Reads.repair {b : Bytes} {rs : List Record} (h : Reads b rs) :
    Wal.repair (.durable b) = .durable (segmentData rs) := by
  obtain ⟨hr, tail, rfl, ht⟩ := h
  have hscan := scanSegment_tail hr ht
  rw [Wal.repair, DurableFile.data_durable, hscan]
  by_cases hnil : tail = []
  · simp [hnil]
  · have htake : (segmentData rs ++ tail).take (segmentBytes rs) = segmentData rs :=
      List.take_left' (length_segmentData rs)
    simp [hnil, DurableFile.truncate, DurableFile.durable, htake]

theorem Short.repair {b : Bytes} (h : Short b) :
    Wal.repair (.durable b) = .durable [] := by
  rw [Wal.repair, DurableFile.data_durable, scanSegment_short h]
  simp [DurableFile.truncate, DurableFile.durable]

/-- A whole frame above the cap and everything behind it is a tail. -/
theorem reads_survivors {rs : List Record}
    (h : ∀ r ∈ rs, Fits r → Readable r) (hlt : ∀ r ∈ rs, payloadSize r < 2 ^ 32) :
    Reads (segmentData rs) (survivors rs) := by
  refine ⟨fun r hr => h r ((List.takeWhile_prefix _).subset hr)
    (by simpa using List.mem_takeWhile_imp hr), codec.encodeAll (rs.dropWhile (fun r => Fits r)),
    ?_, ?_⟩
  · rw [← segmentData_append, survivors, List.takeWhile_append_dropWhile]
  · rcases hd : rs.dropWhile (fun r => Fits r) with _ | ⟨r, rest⟩
    · exact codec.read_nil
    · have hmem : r ∈ rs := (List.dropWhile_suffix _).subset (hd ▸ List.mem_cons_self)
      have hnot : ¬Fits r := by
        have := List.head_dropWhile_not (fun r => decide (Fits r)) (l := rs) (by simp [hd])
        simpa [hd] using this
      rw [FrameCodec.encodeAll_cons]
      exact readFrame_oversize (not_le.mp hnot) (hlt r hmem) _

theorem segmentData_survivors_iff (rs : List Record) :
    segmentData rs = segmentData (survivors rs) ↔ ∀ r ∈ rs, Fits r := by
  have hsplit : survivors rs ++ rs.dropWhile (fun r => Fits r) = rs :=
    List.takeWhile_append_dropWhile
  constructor
  · intro h
    have hd : codec.encodeAll (rs.dropWhile (fun r => Fits r)) = [] := by
      rw [← hsplit, segmentData_append, hsplit] at h
      exact List.append_right_eq_self.mp h
    have hnil : rs.dropWhile (fun r => Fits r) = [] := by
      rcases hdw : rs.dropWhile (fun r => Fits r) with _ | ⟨r, rest⟩
      · rfl
      · rw [hdw, FrameCodec.encodeAll_cons] at hd
        exact absurd (List.append_eq_nil_iff.mp hd).1 (codec.encode_ne_nil r)
    intro r hr
    rw [← hsplit, hnil, List.append_nil] at hr
    simpa using List.mem_takeWhile_imp hr
  · intro h
    rw [survivors, List.takeWhile_eq_self_iff.mpr (fun r hr => decide_eq_true (h r hr))]

theorem Reads.prefix_of_segmentData {rs ts : List Record} {b : Bytes} (h : Reads b rs)
    (ht : ∀ r ∈ ts, Readable r) (hb : segmentData ts <+: b) : ts <+: rs := by
  obtain ⟨x, rfl⟩ := hb
  have hscan := h.replay
  rw [scanSegment_eq (badHeader_segmentData ts x), drop_segmentData, codec.scan_append ht] at hscan
  exact ⟨_, hscan⟩

/-- What a crash leaves of a segment reads as a prefix that covers the synced records. -/
theorem reads_of_prefix {rs : List Record} (h : ∀ r ∈ rs, Readable r) {b : Bytes}
    (hb : b <+: segmentData rs) :
    (Short b) ∨ ∃ k, Reads b (rs.take k) := by
  rcases Nat.lt_or_ge b.length kHeaderSize with hs | hs
  · exact .inl hs
  · right
    have htake : b = header ++ (codec.encodeAll rs).take (b.length - kHeaderSize) := by
      calc b = (segmentData rs).take b.length := List.prefix_iff_eq_take.mp hb
        _ = header.take b.length ++ (codec.encodeAll rs).take (b.length - header.length) :=
          List.take_append
        _ = _ := by rw [List.take_of_length_le (by simpa using hs), length_header]
    obtain ⟨k, tail, h₁, h₂⟩ := codec.scan_take h (b.length - kHeaderSize)
    refine ⟨k, fun r hr => h r (List.mem_of_mem_take hr), tail, ?_, ?_⟩
    · rw [htake, h₂, segmentData, List.append_assoc]
    · have := (codec.scan_sound ((codec.encodeAll rs).take (b.length - kHeaderSize))).2.2
      rwa [h₁] at this

/-- A segment that still holds the bytes of its first records reads as at least those. -/
theorem reads_of_prefix_synced {rs : List Record} (h : ∀ r ∈ rs, Readable r) {b : Bytes}
    (hb : b <+: segmentData rs) {m : ℕ} (hm : segmentBytes (rs.take m) ≤ b.length) :
    ∃ k, m ≤ k ∧ Reads b (rs.take k) := by
  rcases reads_of_prefix h hb with hs | ⟨k, hk⟩
  · exfalso
    simp only [Short, segmentBytes] at hs hm
    omega
  · have hsub : segmentData (rs.take m) <+: b := by
      refine List.prefix_of_prefix_length_le ?_ hb (by simpa using hm)
      conv_rhs => rw [← List.take_append_drop m rs, segmentData_append]
      exact List.prefix_append _ _
    have hpre := (hk.prefix_of_segmentData (fun r hr => h r (List.mem_of_mem_take hr)) hsub)
    rcases Nat.le_total m k with hmk | hmk
    · exact ⟨k, hmk, hk⟩
    · refine ⟨m, le_rfl, ?_⟩
      have hle := hpre.length_le
      have : rs.take k = rs.take m := by
        simp only [List.length_take] at hle
        rcases Nat.lt_or_ge k rs.length with hlt | hge
        · have : k = m := by omega
          rw [this]
        · rw [List.take_of_length_le hge, List.take_of_length_le (hge.trans hmk)]
      rwa [← this]

end LsmKv
