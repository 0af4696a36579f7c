import LsmKv.WalScan

/-!
# The grammar of a segment

Behind its header a segment is a concatenation of record frames. The scanner replays the
longest prefix that is one, whatever the bytes are, and says where that prefix ends.
-/

namespace LsmKv
open WalFormat

namespace FrameCodec

universe u

variable {R : Type u} (c : FrameCodec R)

/-- No concatenation of frames at the front of the input is longer than what is scanned. -/
theorem scan_longest {b : Bytes} {ts : List R} (ht : ∀ t ∈ ts, c.Good t)
    (hb : c.encodeAll ts <+: b) :
    ts <+: (c.scan b).1 ∧ c.encodeAll ts <+: c.encodeAll (c.scan b).1 := by
  obtain ⟨rest, rfl⟩ := hb
  rw [c.scan_append ht, c.encodeAll_append]
  exact ⟨List.prefix_append _ _, List.prefix_append _ _⟩

theorem encodeAll_injective {rs ts : List R} (hr : ∀ r ∈ rs, c.Good r) (ht : ∀ t ∈ ts, c.Good t)
    (h : c.encodeAll rs = c.encodeAll ts) : rs = ts := by
  have hrs := c.scan_encodeAll_nil hr
  rw [h, c.scan_encodeAll_nil ht] at hrs
  exact (Prod.mk.inj hrs).1.symm

theorem scanned_prefix (b : Bytes) : c.encodeAll (c.scan b).1 <+: b :=
  ⟨_, (c.scan_sound b).1.symm⟩

theorem scan_clean_iff (b : Bytes) : (c.scan b).2 = [] ↔ c.encodeAll (c.scan b).1 = b := by
  have hsplit := (c.scan_sound b).1
  constructor
  · intro h
    rw [h, List.append_nil] at hsplit
    exact hsplit.symm
  · intro h
    rw [h] at hsplit
    exact List.append_right_eq_self.mp hsplit.symm

/-- A cut keeps the whole frames before it and not one more. -/
theorem scan_take_whole {rs : List R} (hg : ∀ r ∈ rs, c.Good r) (n : ℕ) :
    ∃ k ≤ rs.length, (c.scan ((c.encodeAll rs).take n)).1 = rs.take k ∧
      (c.encodeAll (rs.take k)).length ≤ n ∧
      (k < rs.length → n < (c.encodeAll (rs.take (k + 1))).length) := by
  obtain ⟨k, tail, hscan, hcut⟩ := c.scan_take hg n
  have htake : rs.take k = rs.take (min k rs.length) := by
    rw [List.take_eq_take_iff]
    omega
  have hlen := congrArg List.length hcut
  rw [List.length_take, List.length_append] at hlen
  refine ⟨min k rs.length, min_le_right _ _, by rw [hscan, htake], ?_, fun hk => ?_⟩
  · rw [← htake]
    omega
  · by_contra hle
    have hnext : c.encodeAll (rs.take (min k rs.length + 1)) <+: (c.encodeAll rs).take n := by
      refine List.prefix_take_iff.mpr ⟨?_, not_lt.mp hle⟩
      conv_rhs => rw [← List.take_append_drop (min k rs.length + 1) rs, c.encodeAll_append]
      exact List.prefix_append _ _
    have hpre := (c.scan_longest (fun r hr => hg r (List.mem_of_mem_take hr)) hnext).1
    rw [hscan, htake] at hpre
    have := hpre.length_le
    rw [List.length_take, List.length_take] at this
    omega

end FrameCodec

/-- The bytes `p` are the frames of these records one after another. -/
structure InGrammar (rs : List Record) (p : Bytes) : Prop where
  readable : ∀ r ∈ rs, Readable r
  frames : p = rs.flatMap frame

/-- What the scanner makes of `b` behind the header `h`. -/
structure ScansGrammar (h b : Bytes) : Prop where
  /-- the loop ends: more turns change nothing -/
  ends : ∀ n, b.length ≤ n →
    Wal.scanRecords n b { goodBytes := kHeaderSize } = Wal.scanSegment (h ++ b)
  longest : ∃ p, p <+: b ∧ InGrammar (Wal.scanSegment (h ++ b)).2 p ∧
    (∀ ts q, InGrammar ts q → q <+: b → q <+: p) ∧
    (Wal.scanSegment (h ++ b)).1.goodBytes = kHeaderSize + p.length ∧
    ((Wal.scanSegment (h ++ b)).1.clean = true ↔ p = b)
  records : (Wal.scanSegment (h ++ b)).1.records = (Wal.scanSegment (h ++ b)).2.length
  maxSeqno : (Wal.scanSegment (h ++ b)).1.maxSeqno =
    WalLog.maxSeqno (Wal.scanSegment (h ++ b)).2
  reencoded : (h ++ b).take (Wal.scanSegment (h ++ b)).1.goodBytes =
    h ++ (Wal.scanSegment (h ++ b)).2.flatMap frame

/-- A cut of a segment behind its header keeps exactly the records that are whole. -/
def KeepsWhole (h : Bytes) (rs : List Record) (n : ℕ) : Prop :=
  ∃ k ≤ rs.length, (Wal.scanSegment (h ++ (rs.flatMap frame).take n)).2 = rs.take k ∧
    ((rs.take k).flatMap frame).length ≤ n ∧
    (k < rs.length → n < ((rs.take (k + 1)).flatMap frame).length)

/-- A header the scanner accepts; the three bytes behind the version are not looked at. -/
structure GoodHeader (h : Bytes) : Prop where
  length : h.length = kHeaderSize
  magic : h.take 4 = kMagic
  version : h[4]? = some kVersion

section
variable {h : Bytes}

theorem GoodHeader.accepted (hh : GoodHeader h) (b : Bytes) : Wal.badHeader (h ++ b) = false := by
  have hlen := hh.length
  have h₄ : 4 < h.length := by
    rw [hlen]
    exact Nat.lt_of_sub_eq_succ rfl
  rw [Wal.badHeader, List.take_append_of_le_length hlen.ge, List.take_of_length_le hlen.le, hlen,
    List.take_append_of_le_length h₄.le, hh.magic, List.getElem?_append_left h₄, hh.version]
  rfl

theorem GoodHeader.scan (hh : GoodHeader h) (b : Bytes) :
    Wal.scanSegment (h ++ b) =
      ({ records := (codec.scan b).1.length
         maxSeqno := WalLog.maxSeqno (codec.scan b).1
         goodBytes := kHeaderSize + (codec.encodeAll (codec.scan b).1).length
         clean := (codec.scan b).2 = [] }, (codec.scan b).1) := by
  rw [scanSegment_eq (hh.accepted b), List.drop_left' hh.length]

theorem GoodHeader.scansGrammar (hh : GoodHeader h) (b : Bytes) : ScansGrammar h b := by
  have hscan := hh.scan b
  obtain ⟨hsplit, hgood, -⟩ := codec.scan_sound b
  constructor
  · intro n hn
    rw [hscan, scanRecords_eq hn, Nat.zero_add]
    rfl
  · rw [hscan]
    refine ⟨codec.encodeAll (codec.scan b).1, codec.scanned_prefix b, ⟨hgood, rfl⟩, ?_, rfl, ?_⟩
    · rintro ts q ⟨ht, rfl⟩ hq
      exact (codec.scan_longest ht hq).2
    · rw [decide_eq_true_eq]
      exact codec.scan_clean_iff b
  · rw [hscan]
  · rw [hscan]
  · rw [hscan]
    show (h ++ b).take (kHeaderSize + (codec.encodeAll (codec.scan b).1).length) =
      h ++ codec.encodeAll (codec.scan b).1
    have hb : h ++ b = (h ++ codec.encodeAll (codec.scan b).1) ++ (codec.scan b).2 := by
      rw [List.append_assoc, ← hsplit]
    rw [hb]
    exact List.take_left' (by rw [List.length_append, hh.length])

end

/-- Behind a valid header the scanner accepts exactly its grammar; cuts keep whole records and
garbage behind a segment loses none of it. -/
theorem scanSegment_grammar (h : Bytes) (hh : GoodHeader h) :
    (∀ b, ScansGrammar h b) ∧
      (∀ rs, (∀ r ∈ rs, Readable r) → ∀ n, KeepsWhole h rs n) ∧
      (∀ rs, (∀ r ∈ rs, Readable r) → ∀ garbage,
        rs <+: (Wal.scanSegment (h ++ (rs.flatMap frame ++ garbage))).2) ∧
      ∀ rs ts p, InGrammar rs p → InGrammar ts p → rs = ts := by
  refine ⟨hh.scansGrammar, fun rs hr n => ?_, fun rs hr garbage => ?_, ?_⟩
  · have hcut := codec.scan_take_whole hr n
    rw [KeepsWhole, hh.scan]
    exact hcut
  · rw [hh.scan]
    exact (codec.scan_longest hr (List.prefix_append _ _)).1
  · rintro rs ts p ⟨hr, hp⟩ ⟨ht, hp'⟩
    exact codec.encodeAll_injective hr ht (hp.symm.trans hp')

/-- A header with its reserved bytes set, and a length field that claims more than there is. -/
theorem scanSegment_grammar_lying_length :
    ScansGrammar (kMagic ++ [1, 7, 7, 7]) [0x11, 0, 0, 0, 1] :=
  (scanSegment_grammar (kMagic ++ [1, 7, 7, 7]) ⟨by decide, by decide, by decide⟩).1
    [0x11, 0, 0, 0, 1]

end LsmKv
