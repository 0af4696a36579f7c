import LsmKv.SegmentNumbers
import Mathlib.Logic.Relation

/-!
# Failing writes

A log that goes on after a failed `fwrite`, `fflush`, `fsync` or `fopen`. What has been
acknowledged stays recoverable as long as every append that gets to its write finds a whole
active segment, no record whose append failed afterwards is waiting under the number it is
about to hand out, and no failing flush loses what earlier calls handed over. After a failed write
none of this is restored by the code.
-/

namespace LsmKv
open WalFormat WalLog FileNames

namespace Wal

/-- The records the next recovery replays. -/
def replayed (dir : OrderedMap ℕ (DurableFile UInt8)) : List Record :=
  (scanAll false dir ∅).replayed

/-- A call on an open log and where a failing system call cuts it short. -/
inductive Call where
  | append (cut : Cut) (q : Request)
  | roll (cut : Cut)
  deriving DecidableEq, Repr

/-- One process's use of a log: the log and the records acknowledged so far. -/
structure Session where
  log : Wal UInt8
  acked : List Record

/-- The caller catches the error and goes on. -/
def Session.step (s : Session) : Call → Session
  | .append cut q => match s.log.request cut q with
    | (w, .ok seqno) => ⟨w, s.acked ++ [q.record seqno]⟩
    | (w, .error _) => ⟨w, s.acked⟩
  | .roll cut => ⟨(s.log.roll cut).1, s.acked⟩

/-- The next recovery replays what was acknowledged and no number twice. -/
def Session.Recoverable (s : Session) : Prop :=
  ∀ n rb, ∃ report rs, recover n rb (listed s.log.dir) = .ok (report, rs) ∧
    (∀ r ∈ s.acked, r ∈ rs) ∧ (rs.map Record.seqno).Nodup

/-- The calls that fail inside a roll. -/
def Cut.inRoll : Cut → Bool
  | .rollFlush _ | .rollSync | .rollOpen | .header _ | .headerFlush _ | .headerSync => true
  | .never | .record _ | .recordSpill _ | .recordFlush _ | .recordSync => false

/-- A failing flush loses nothing but some of the last `own` bytes, which the call itself handed
over. -/
def Cut.Spares (own : ℕ) : Cut → Prop
  | .rollFlush lost => lost = 0
  | .recordSpill lost | .recordFlush lost => lost ≤ own
  | .never | .rollSync | .rollOpen | .header _ | .headerFlush _ | .headerSync | .record _
  | .recordSync => True

/-- The record does not get into its segment whole. A flush comes only if a sync is due. -/
def Cut.Shortens (r : Record) (due : Prop) : Cut → Prop
  | .record n => n < (frame r).length
  | .recordSpill lost => 0 < lost
  | .recordFlush lost => 0 < lost ∧ due
  | .never | .rollFlush _ | .rollSync | .rollOpen | .header _ | .headerFlush _ | .headerSync
  | .recordSync => False

/-- A sync is due with the next record. -/
def Due (w : Wal UInt8) : Prop := w.fsyncEveryN ≤ w.appendsSinceSync + 1

/-- A sync is due with `r`, before which a roll may come. -/
def DueWith (w : Wal UInt8) (r : Record) : Prop :=
  w.fsyncEveryN ≤ (if w.mustRoll r then 0 else w.appendsSinceSync) + 1

/-- The append of `r` gets to its write. -/
def Writes (w : Wal UInt8) (cut : Cut) (r : Record) : Prop :=
  checkAppend w.isOpen r.key r.value = .ok () ∧ ¬(w.mustRoll r ∧ cut.inRoll)

/-- No flush loses what was handed over before the call, and no roll runs out of names. The
append that gets to its write appends to a whole segment, and unless that write stops short, no
record in the log is above the counter. -/
def Sound (w : Wal UInt8) : Call → Prop
  | .roll cut => cut.Spares 0 ∧ w.activeId + 1 < 10 ^ 11
  | .append cut q =>
    let r := w.nextRecord q.isDel q.key q.value
    cut.Spares (frame r).length ∧ (w.mustRoll r → w.activeId + 1 < 10 ^ 11) ∧ (w.Writes cut r →
      (w.mustRoll r ∨ (scanSegment w.activeFile.data).1.clean) ∧
      (cut.Shortens r (w.DueWith r) ∨
        (w.lastSeqno + 1 < 2 ^ 64 ∧ ∀ r' ∈ replayed w.dir, r'.seqno ≤ w.lastSeqno)))

/-- The payload of an append stays under the cap. -/
def Call.Fits : Call → Prop
  | .append _ q => q.payloadLen ≤ kMaxPayload
  | .roll _ => True

instance : (c : Call) → Decidable c.Fits
  | .append _ q => inferInstanceAs (Decidable (q.payloadLen ≤ kMaxPayload))
  | .roll _ => inferInstanceAs (Decidable True)

instance (w : Wal UInt8) : Decidable w.Due :=
  inferInstanceAs (Decidable (w.fsyncEveryN ≤ w.appendsSinceSync + 1))

theorem appendRecord_recordFlush (w : Wal UInt8) (lost : ℕ) (r : Record) :
    w.appendRecord (.recordFlush lost) r =
      if w.Due then ((w.writeRecord r).onActive (·.lose lost), .error (ioFailure "fflush failed"))
      else w.appendRecord .never r := by
  by_cases hdue : w.Due
  · exact (if_pos hdue).trans (if_pos hdue).symm
  · exact ((if_neg hdue).trans (if_neg hdue).symm).trans (if_neg hdue).symm

theorem appendRecord_recordSync (w : Wal UInt8) (r : Record) :
    w.appendRecord .recordSync r =
      if w.Due then (w.writeRecord r, .error (ioFailure "fsync failed"))
      else w.appendRecord .never r := by
  by_cases hdue : w.Due
  · exact (if_pos hdue).trans (if_pos hdue).symm
  · exact ((if_neg hdue).trans (if_neg hdue).symm).trans (if_neg hdue).symm

/-- A roll that succeeds is not cut short. -/
theorem inRoll_of_ok {w w' : Wal UInt8} {cut : Cut} {u : Unit}
    (h : w.rollSegment cut = (w', .ok u)) : cut.inRoll = false := by
  cases cut <;> first | rfl | cases h

/-! ## Recovery always answers -/

theorem openActiveSegment_never (id : ℕ) (fresh : Bool) (w : Wal UInt8) :
    (w.openActiveSegment .never id fresh).2 = .ok () := by
  cases fresh <;> rfl

/-- An open that meets no error replays the directory. -/
theorem open_never (w : Wal UInt8) :
    (w.open .never).2 = .ok ((scanAll true w.dir w.segmentMaxSeqno).report, replayed w.dir) := by
  unfold Wal.open
  dsimp only
  rcases w.scanned.dir.entries.getLast? with _ | ⟨id, f⟩
  · have h := openActiveSegment_never 1 true w.scanned
    rcases hs : w.scanned.openActiveSegment .never 1 true with ⟨w', e | u⟩
    · simp [hs] at h
    · rfl
  · have h := openActiveSegment_never id (decide (f.data.length < kHeaderSize)) w.scanned
    rcases hs : w.scanned.openActiveSegment .never id (decide (f.data.length < kHeaderSize)) with
      ⟨w', e | u⟩
    · simp [hs] at h
    · simp only [hs]
      rfl

theorem recover_eq (n rb : ℕ) (dir : OrderedMap ℕ (DurableFile UInt8)) :
    recover n rb dir = .ok (verify dir, replayed dir) := open_never (create dir n rb)

theorem recoverable_iff (s : Session) :
    s.Recoverable ↔ (∀ r ∈ s.acked, r ∈ replayed (listed s.log.dir)) ∧
      ((replayed (listed s.log.dir)).map Record.seqno).Nodup := by
  unfold Session.Recoverable
  constructor
  · intro h
    obtain ⟨report, rs, hrec, h₁, h₂⟩ := h 0 0
    obtain ⟨-, rfl⟩ :=
      Prod.mk.inj (Except.ok.inj ((recover_eq 0 0 (listed s.log.dir)).symm.trans hrec))
    exact ⟨h₁, h₂⟩
  · exact fun h n rb => ⟨_, _, recover_eq n rb (listed s.log.dir), h.1, h.2⟩

end Wal

/-! ## What lands in the active segment -/

theorem replayed_of_ends {w : Wal UInt8} {pre f} (h : w.Ends pre f) :
    Wal.replayed w.dir =
      pre.flatMap (fun p => (Wal.scanSegment p.2.data).2) ++ (Wal.scanSegment f.data).2 := by
  show w.dir.entries.flatMap _ = _
  rw [h, List.flatMap_append]
  simp

theorem badHeader_append {b : Bytes} (h : kHeaderSize ≤ b.length) (x : Bytes) :
    Wal.badHeader (b ++ x) = Wal.badHeader b := by
  have h₄ : 4 < b.length := lt_of_lt_of_le (by decide) h
  have htake : (b ++ x).take kHeaderSize = b.take kHeaderSize := List.take_append_of_le_length h
  have hmagic : (b ++ x).take 4 = b.take 4 := List.take_append_of_le_length h₄.le
  have hversion : (b ++ x)[4]? = b[4]? := List.getElem?_append_left h₄
  simp only [Wal.badHeader, htake, hmagic, hversion]

theorem length_of_header {b : Bytes} (h : Wal.badHeader b = false) : kHeaderSize ≤ b.length := by
  by_contra hs
  rw [badHeader_short (not_le.mp hs)] at h
  cases h

/-- Bytes behind a whole segment are read as they would be on their own. -/
theorem scanSegment_append {b : Bytes} (h : (Wal.scanSegment b).1.clean = true) (x : Bytes) :
    (Wal.scanSegment (b ++ x)).2 = (Wal.scanSegment b).2 ++ (codec.scan x).1 := by
  have hb : Wal.badHeader b = false := by
    by_contra hbad
    rw [Wal.scanSegment, if_pos (by simpa using hbad)] at h
    cases h
  have hlen := length_of_header hb
  have hbx : Wal.badHeader (b ++ x) = false := (badHeader_append hlen x).trans hb
  rw [scanSegment_eq hb] at h
  have hnil : (codec.scan (b.drop kHeaderSize)).2 = [] := by simpa using h
  obtain ⟨hsplit, hgood, -⟩ := codec.scan_sound (b.drop kHeaderSize)
  rw [hnil, List.append_nil] at hsplit
  rw [scanSegment_eq hbx, scanSegment_eq hb, List.drop_append_of_le_length hlen]
  conv_lhs => rw [hsplit]
  rw [codec.scan_append hgood]

theorem scan_frame_take {r : Record} (hr : Readable r) (n : ℕ) :
    (codec.scan ((frame r).take n)).1 = if (frame r).length ≤ n then [r] else [] := by
  split
  · rename_i h
    have hall : (frame r).take n = codec.encodeAll [r] := by
      rw [List.take_of_length_le h]
      simp [codec]
    have hgood : ∀ r' ∈ [r], codec.Good r' := fun r' hr' => List.mem_singleton.mp hr' ▸ hr
    rw [hall, codec.scan_encodeAll_nil hgood]
  · rename_i h
    have hcut : codec.read ((frame r).take n) = none :=
      codec.read_cut (r := r) hr (List.take_append_drop n _).symm
        (fun hd => h (List.drop_eq_nil_iff.mp hd))
    rw [codec.scan_of_read_none hcut]

theorem scan_header_take (n : ℕ) : (Wal.scanSegment (header.take n)).2 = [] := by
  rcases Nat.lt_or_ge n kHeaderSize with h | h
  · rw [scanSegment_short]
    exact lt_of_le_of_lt (List.length_take_le n header) h
  · rw [List.take_of_length_le h]
    rfl

theorem replayed_newSegment {w w' : Wal UInt8} {pre f f'} (h : w.Ends pre f)
    (h' : w'.Ends (pre ++ [(w.activeId, f.sync)]) f') (hx : (Wal.scanSegment f'.data).2 = []) :
    Wal.replayed w'.dir = Wal.replayed w.dir := by
  rw [replayed_of_ends h', replayed_of_ends h, hx, List.flatMap_append]
  simp

/-- A roll, failed or not, leaves what is replayed as it was, if its flush loses nothing; when it
succeeds the new segment is whole. -/
theorem rollSegment_replayed {w : Wal UInt8} {pre f} (h : w.Ends pre f) {cut : Wal.Cut} {own : ℕ}
    (hspares : cut.Spares own) :
    ∃ pre' f', (w.rollSegment cut).1.Ends pre' f' ∧
      Wal.replayed (w.rollSegment cut).1.dir = Wal.replayed w.dir ∧
      (w.rollSegment cut).1.lastSeqno = w.lastSeqno ∧
      ((w.rollSegment cut).2 = .ok () → cut.inRoll = false ∧
        (Wal.scanSegment f'.data).1.clean = true ∧
        (w.rollSegment cut).1.fsyncEveryN = w.fsyncEveryN ∧
        (w.rollSegment cut).1.appendsSinceSync = 0) := by
  have hclosed : (w.onActive (·.sync)).closeFile.Ends pre f.sync := h.onActive (·.sync)
  have hopen := hclosed.openFile
  have hwhole : ∀ w' : Wal UInt8, w'.Ends (pre ++ [(w.activeId, f.sync)])
      ((DurableFile.new.append header).sync) → Wal.replayed w'.dir = Wal.replayed w.dir :=
    fun w' h' => replayed_newSegment h h' (scan_header_take kHeaderSize)
  have hdone := (hopen.onActive (·.append header)).onActive (·.sync)
  cases cut with
  | rollFlush lost =>
    obtain rfl : lost = 0 := hspares
    have hends : (w.onActive (·.lose 0)).Ends pre f := f.lose_zero ▸ h.onActive (·.lose 0)
    refine ⟨pre, f, hends, ?_, rfl, fun he => by cases he⟩
    rw [replayed_of_ends h]
    exact replayed_of_ends hends
  | rollSync => exact ⟨pre, f, h, rfl, rfl, fun he => by cases he⟩
  | rollOpen =>
    refine ⟨pre, f.sync, hclosed, ?_, rfl, fun he => by cases he⟩
    rw [replayed_of_ends h]
    exact replayed_of_ends (f := f.sync) hclosed
  | header n =>
    exact ⟨_, _, hopen.onActive (·.append (header.take n)),
      replayed_newSegment h (hopen.onActive (·.append (header.take n))) (scan_header_take n), rfl,
      fun he => by cases he⟩
  | headerFlush n =>
    exact ⟨_, _, hopen.onActive (·.append (header.take n)),
      replayed_newSegment h (hopen.onActive (·.append (header.take n))) (scan_header_take n), rfl,
      fun he => by cases he⟩
  | headerSync =>
    exact ⟨_, _, hopen.onActive (·.append header),
      replayed_newSegment h (hopen.onActive (·.append header)) (scan_header_take kHeaderSize), rfl,
      fun he => by cases he⟩
  | never | record _ | recordSpill _ | recordFlush _ | recordSync =>
    exact ⟨_, _, hdone, hwhole _ hdone, rfl, fun _ => ⟨rfl, rfl, rfl, rfl⟩⟩

/-- What a write of `r` leaves: all of the record or nothing of it, and the record if it is
acknowledged. -/
def Lands (w : Wal UInt8) (r : Record) (shortened : Prop) (x : Wal UInt8 × Except Error ℕ) :
    Prop :=
  ∃ pre f new, x.1.Ends pre f ∧ Wal.replayed x.1.dir = Wal.replayed w.dir ++ new ∧
    (shortened ∧ new = [] ∨ ¬shortened ∧ new = [r]) ∧
    ∀ seqno, x.2 = .ok seqno → seqno = r.seqno ∧ new = [r]

theorem replayed_grown {w w' : Wal UInt8} {pre f f'} (h : w.Ends pre f) (h' : w'.Ends pre f')
    (hc : (Wal.scanSegment f.data).1.clean = true) {r : Record} (hr : Readable r) {n : ℕ}
    (hx : f'.data = f.data ++ (frame r).take n) :
    Wal.replayed w'.dir = Wal.replayed w.dir ++ if (frame r).length ≤ n then [r] else [] := by
  rw [replayed_of_ends h', replayed_of_ends h, hx, scanSegment_append hc, List.append_assoc,
    scan_frame_take hr]

section
variable {w w' : Wal UInt8} {pre : List (ℕ × DurableFile UInt8)} {f f' : DurableFile UInt8}
  {r : Record} {shortened : Prop}

theorem lands_whole (h : w.Ends pre f) (h' : w'.Ends pre f')
    (hc : (Wal.scanSegment f.data).1.clean = true) (hr : Readable r)
    (hx : f'.data = f.data ++ frame r) (hs : ¬shortened) {res : Except Error ℕ}
    (hres : ∀ seqno, res = .ok seqno → seqno = r.seqno) : Lands w r shortened (w', res) := by
  have hrep := replayed_grown h h' hc hr (n := (frame r).length) (by rw [hx, List.take_length])
  rw [if_pos le_rfl] at hrep
  exact ⟨pre, f', [r], h', hrep, .inr ⟨hs, rfl⟩, fun seqno he => ⟨hres seqno he, rfl⟩⟩

theorem lands_part (h : w.Ends pre f) (h' : w'.Ends pre f')
    (hc : (Wal.scanSegment f.data).1.clean = true) (hr : Readable r) {n : ℕ}
    (hx : f'.data = f.data ++ (frame r).take n) (hn : n < (frame r).length) (hs : shortened)
    (e : Error) : Lands w r shortened (w', .error e) := by
  have hrep := replayed_grown h h' hc hr hx
  rw [if_neg (not_le.mpr hn)] at hrep
  exact ⟨pre, f', [], h', hrep, .inl ⟨hs, rfl⟩, fun _ he => by cases he⟩

/-- A failing flush that spares what was there before the record. -/
theorem lands_lose (h : w.Ends pre f) {lost : ℕ}
    (h' : w'.Ends pre ((f.append (frame r)).lose lost))
    (hc : (Wal.scanSegment f.data).1.clean = true) (hr : Readable r)
    (hlost : lost ≤ (frame r).length) (hs : shortened ↔ 0 < lost) (e : Error) :
    Lands w r shortened (w', .error e) := by
  have hpos := length_frame_pos r
  by_cases hzero : 0 < lost
  · exact lands_part h h' hc hr (f.data_lose_append hlost) (by omega) (hs.mpr hzero) e
  · obtain rfl : lost = 0 := by omega
    exact lands_whole h h' hc hr (by rw [DurableFile.lose_zero]; rfl) (fun hs' => hzero (hs.mp hs'))
      (fun _ he => by cases he)

end

/-- A write behind a whole segment adds the record or nothing, and the record if it is
acknowledged. -/
theorem appendRecord_replayed {w : Wal UInt8} {pre f} (h : w.Ends pre f) {r : Record}
    (hr : Readable r) (hc : (Wal.scanSegment f.data).1.clean = true) {cut : Wal.Cut}
    (hspares : cut.Spares (frame r).length) :
    Lands w r (cut.Shortens r w.Due) (w.appendRecord cut r) := by
  have hwrite : (w.writeRecord r).Ends pre (f.append (frame r)) := h.onActive (·.append (frame r))
  have hdone : ∀ {shortened : Prop}, ¬shortened →
      Lands w r shortened (w.appendRecord .never r) := by
    intro shortened hs
    by_cases hdue : w.Due
    · have hform : w.appendRecord .never r = ((w.writeRecord r).sync.acknowledge r.seqno,
          .ok r.seqno) := if_pos hdue
      rw [hform]
      exact lands_whole h hwrite.sync hc hr rfl hs (fun _ he => (Except.ok.inj he).symm)
    · have hform : w.appendRecord .never r = ((w.writeRecord r).acknowledge r.seqno,
          .ok r.seqno) := if_neg hdue
      rw [hform]
      exact lands_whole h hwrite hc hr rfl hs (fun _ he => (Except.ok.inj he).symm)
  cases cut with
  | never | rollFlush _ | rollSync | rollOpen | header _ | headerFlush _ | headerSync =>
    exact hdone id
  | record n =>
    have hends : (w.onActive (·.append ((frame r).take n))).Ends pre
        (f.append ((frame r).take n)) := h.onActive (·.append ((frame r).take n))
    by_cases hn : n < (frame r).length
    · exact lands_part h hends hc hr rfl hn hn _
    · have hall : (frame r).take n = frame r := List.take_of_length_le (not_lt.mp hn)
      exact lands_whole h hends hc hr (congrArg (f.data ++ ·) hall) hn (fun _ he => by cases he)
  | recordSpill lost => exact lands_lose h (h.onActive _) hc hr hspares Iff.rfl _
  | recordFlush lost =>
    rw [Wal.appendRecord_recordFlush]
    split
    · rename_i hdue
      exact lands_lose h (hwrite.onActive _) hc hr hspares (and_iff_left hdue) _
    · rename_i hdue
      exact hdone (fun hs => hdue hs.2)
  | recordSync =>
    rw [Wal.appendRecord_recordSync]
    split
    · exact lands_whole h hwrite hc hr rfl id (fun _ he => by cases he)
    · exact hdone id

/-- What one append may leave: nothing new, or its record under a number above all others, and
its record if it is acknowledged. -/
structure Extends (w w' : Wal UInt8) (q : Wal.Request) (res : Except Error ℕ) : Prop where
  ends : ∃ pre f, w'.Ends pre f
  new : ∃ new, Wal.replayed w'.dir = Wal.replayed w.dir ++ new ∧ new.length ≤ 1 ∧
    (∀ r ∈ new, ∀ r' ∈ Wal.replayed w.dir, r'.seqno < r.seqno) ∧
    ∀ seqno, res = .ok seqno → new = [q.record seqno]

theorem extends_of_error {w w' : Wal UInt8} {pre f} (h : w'.Ends pre f)
    (hsame : Wal.replayed w'.dir = Wal.replayed w.dir) (q : Wal.Request) (e : Error) :
    Extends w w' q (.error e) :=
  ⟨⟨pre, f, h⟩, [], by simp [hsame], by simp, by simp, fun _ he => by cases he⟩

theorem extends_write {w w' : Wal UInt8} {pre f} (h : w'.Ends pre f)
    (hsame : Wal.replayed w'.dir = Wal.replayed w.dir)
    (hc : (Wal.scanSegment f.data).1.clean = true) {cut : Wal.Cut} {q : Wal.Request}
    {r : Record} (hread : Readable r) (hspares : cut.Spares (frame r).length)
    (hq : r = q.record r.seqno)
    (hseq : cut.Shortens r w'.Due ∨ ∀ r' ∈ Wal.replayed w.dir, r'.seqno < r.seqno) :
    Extends w (w'.appendRecord cut r).1 q (w'.appendRecord cut r).2 := by
  obtain ⟨pre', f', new, he, hrep, hnew, hok⟩ := appendRecord_replayed h hread hc hspares
  refine ⟨⟨pre', f', he⟩, new, hsame ▸ hrep, ?_, ?_, fun seqno hres => ?_⟩
  · rcases hnew with ⟨-, rfl⟩ | ⟨-, rfl⟩ <;> simp
  · rcases hnew with ⟨-, rfl⟩ | ⟨hwhole, rfl⟩
    · simp
    · intro r₁ hr₁
      obtain rfl := List.mem_singleton.mp hr₁
      exact hseq.resolve_left hwhole
  · obtain ⟨rfl, hnew'⟩ := hok seqno hres
    rw [hnew', ← hq]

theorem extends_append {w : Wal UInt8} {pre f} (h : w.Ends pre f) {cut : Wal.Cut}
    {q : Wal.Request} (hf : q.payloadLen ≤ kMaxPayload) (hs : Wal.Sound w (.append cut q)) :
    Extends w (w.request cut q).1 q (w.request cut q).2 := by
  set r : Record := w.nextRecord q.isDel q.key q.value with hr
  have hread : Readable r := readable_record (Nat.mod_lt _ (by norm_num)) hf
  have hq : r = q.record r.seqno := rfl
  rw [Wal.request_eq, Wal.append, ← hr]
  rcases hcheck : Wal.checkAppend w.isOpen q.key q.value with e | u
  · exact extends_of_error h rfl q e
  obtain ⟨hspares, -, hs⟩ := hs
  have hseq : w.Writes cut r → cut.Shortens r (w.DueWith r) ∨
      ∀ r' ∈ Wal.replayed w.dir, r'.seqno < r.seqno := by
    intro hw
    refine (hs hw).2.imp_right (fun hnew r' hr' => ?_)
    have hnext : r.seqno = w.lastSeqno + 1 := Nat.mod_eq_of_lt hnew.1
    have := hnew.2 r' hr'
    omega
  by_cases hroll : w.mustRoll r
  · obtain ⟨pre', f', he, hsame, -, hok⟩ := rollSegment_replayed h hspares
    simp only [hroll, if_true]
    rcases hres : w.rollSegment cut with ⟨w', e | u⟩
    · exact extends_of_error (by rwa [hres] at he) (by rwa [hres] at hsame) q e
    · rw [hres] at he hsame hok
      obtain ⟨hcut, hc, hevery, hnone⟩ := hok rfl
      have hdue : w.DueWith r = w'.Due := by
        rw [Wal.DueWith, Wal.Due, if_pos hroll]
        exact congrArg₂ (fun n k => n ≤ k + 1) hevery.symm hnone.symm
      exact extends_write he hsame hc hread hspares hq
        (hdue ▸ hseq ⟨hcheck, by rintro ⟨-, hin⟩; rw [hcut] at hin; cases hin⟩)
  · have hw : w.Writes cut r := ⟨hcheck, fun hin => hroll hin.1⟩
    have hc := (hs hw).1.resolve_left hroll
    rw [h.activeFile] at hc
    simp only [hroll]
    have hdue : w.DueWith r = w.Due := by rw [Wal.DueWith, Wal.Due, if_neg hroll]
    exact extends_write h rfl hc hread hspares hq (hdue ▸ hseq hw)

/-! ## Runs -/

/-- A session whose log ends in its active segment, all of it listed, and whose acknowledged
records are found. -/
structure Kept (s : Wal.Session) : Prop where
  listable : s.log.Listable
  ends : ∃ pre f, s.log.Ends pre f
  acked : ∀ r ∈ s.acked, r ∈ Wal.replayed s.log.dir
  distinct : ((Wal.replayed s.log.dir).map Record.seqno).Nodup

theorem Kept.of_extends {w w' : Wal UInt8} {acked : List Record} {q : Wal.Request}
    {res : Except Error ℕ} (hk : Kept ⟨w, acked⟩) (hl : w'.Listable) (h : Extends w w' q res) :
    Kept ⟨w', acked⟩ ∧ ∀ seqno, res = .ok seqno → q.record seqno ∈ Wal.replayed w'.dir := by
  obtain ⟨new, hrep, hlen, hlt, hok⟩ := h.new
  refine ⟨⟨hl, h.ends, fun r hr => ?_, ?_⟩, fun seqno hres => ?_⟩
  · rw [hrep]
    exact List.mem_append_left _ (hk.acked r hr)
  · rw [hrep, List.map_append, List.nodup_append]
    refine ⟨hk.distinct, ?_, ?_⟩
    · rcases new with _ | ⟨r, _ | ⟨r', rest⟩⟩ <;> simp_all
    · intro a ha b hb
      obtain ⟨r', hr', rfl⟩ := List.mem_map.mp ha
      obtain ⟨r, hr, rfl⟩ := List.mem_map.mp hb
      exact (hlt r hr r' hr').ne
  · rw [hrep, hok seqno hres]
    simp

/-- One call. -/
theorem Kept.step {s : Wal.Session} (h : Kept s) {c : Wal.Call} (hf : c.Fits)
    (hs : Wal.Sound s.log c) : Kept (s.step c) := by
  obtain ⟨pre, f, he⟩ := h.ends
  cases c with
  | append cut q =>
    obtain ⟨hk, hack⟩ :=
      Kept.of_extends h (h.listable.request cut hs.2.1) (extends_append he hf hs)
    rw [Wal.Session.step]
    rcases hres : s.log.request cut q with ⟨w, e | seqno⟩
    · rw [hres] at hk
      exact hk
    · rw [hres] at hk hack
      refine ⟨hk.listable, hk.ends, fun r hr => ?_, hk.distinct⟩
      rcases List.mem_append.mp hr with hr | hr
      · exact hk.acked r hr
      · obtain rfl := List.mem_singleton.mp hr
        exact hack seqno rfl
  | roll cut =>
    obtain ⟨pre', f', he', hsame, -⟩ := rollSegment_replayed he hs.1
    have hlisted := h.listable.rollSegment cut hs.2
    have hdir : (s.log.roll cut).1 = s.log ∨ (s.log.roll cut).1 = (s.log.rollSegment cut).1 := by
      rw [Wal.roll]
      split
      · exact .inl rfl
      · right
        rcases s.log.rollSegment cut with ⟨w, e | u⟩ <;> rfl
    rw [Wal.Session.step]
    rcases hdir with hdir | hdir
    · rw [hdir]
      exact h
    · rw [hdir]
      exact ⟨hlisted, ⟨pre', f', he'⟩, hsame ▸ h.acked, hsame ▸ h.distinct⟩

/-! ## The start -/

theorem repair_of_bad {f : DurableFile UInt8} (h : Wal.badHeader f.data = true) :
    (Wal.repair f).data = [] := by
  simp [Wal.repair, Wal.scanSegment, h, DurableFile.truncate]

/-- Cutting off a torn tail does not change what is replayed. -/
theorem repair_replay (f : DurableFile UInt8) :
    (Wal.scanSegment (Wal.repair f).data).2 = (Wal.scanSegment f.data).2 := by
  rcases hb : Wal.badHeader f.data with _ | _
  · rw [Wal.repair]
    split
    · rfl
    · have hlen := length_of_header hb
      obtain ⟨hsplit, hgood, -⟩ := codec.scan_sound (f.data.drop kHeaderSize)
      have heq := scanSegment_eq hb
      set rs := (codec.scan (f.data.drop kHeaderSize)).1
      have htake : f.data.take (kHeaderSize + (codec.encodeAll rs).length) =
          f.data.take kHeaderSize ++ codec.encodeAll rs := by
        rw [List.take_add, hsplit, List.take_left]
      have hlen' : (f.data.take kHeaderSize).length = kHeaderSize := by
        rw [List.length_take]
        omega
      have hgoodHead : Wal.badHeader (f.data.take kHeaderSize) = false := by
        rw [← badHeader_append hlen'.ge (f.data.drop kHeaderSize), List.take_append_drop, hb]
      have hb' : Wal.badHeader (f.data.take kHeaderSize ++ codec.encodeAll rs) = false := by
        rw [badHeader_append hlen'.ge, hgoodHead]
      rw [heq]
      show (Wal.scanSegment (f.data.take (kHeaderSize + (codec.encodeAll rs).length))).2 = rs
      rw [htake, scanSegment_eq hb', List.drop_left' hlen', codec.scan_encodeAll_nil hgood]
  · have hnil : Short [] := Nat.zero_lt_succ _
    rw [repair_of_bad hb, scanSegment_short hnil, Wal.scanSegment, if_pos hb]

theorem replayed_map_repair (dir : OrderedMap ℕ (DurableFile UInt8)) :
    Wal.replayed (dir.map Wal.repair) = Wal.replayed dir := by
  show ((dir.map Wal.repair).entries).flatMap _ = dir.entries.flatMap _
  rw [OrderedMap.entries_map, List.flatMap_map]
  exact List.flatMap_congr (fun p _ => repair_replay p.2)

theorem openActiveSegment_replayed {w : Wal UInt8} (id : ℕ) (fresh : Bool) {pre f}
    (h : (w.openFile id).Ends pre f) (hx : fresh = true → f.data = []) :
    ∃ w', w.openActiveSegment .never id fresh = (w', .ok ()) ∧ (∃ pre f, w'.Ends pre f) ∧
      Wal.replayed w'.dir = Wal.replayed (w.openFile id).dir := by
  cases fresh with
  | false => exact ⟨_, rfl, ⟨pre, f, h⟩, rfl⟩
  | true =>
    have hdone := (h.onActive (·.append header)).onActive (·.sync)
    refine ⟨_, rfl, ⟨_, _, hdone⟩, (replayed_of_ends hdone).trans ?_⟩
    rw [replayed_of_ends h]
    show _ ++ (Wal.scanSegment (f.data ++ header)).2 = _
    rw [hx rfl]
    rfl

theorem repair_short {f : DurableFile UInt8} (h : Short (Wal.repair f).data) :
    (Wal.repair f).data = [] := by
  rcases hb : Wal.badHeader f.data with _ | _
  · have hlen := length_of_header hb
    have hgood : kHeaderSize ≤ (Wal.scanSegment f.data).1.goodBytes := by
      rw [scanSegment_eq hb]
      exact Nat.le_add_right _ _
    have hrep : kHeaderSize ≤ (Wal.repair f).data.length := by
      rw [Wal.repair]
      split
      · exact hlen
      · show _ ≤ (f.data.take _).length
        rw [List.length_take]
        omega
    exact absurd h (not_lt.mpr hrep)
  · exact repair_of_bad hb

/-- An open log ends in its active segment and has lost nothing that could be read. -/
theorem open_replayed (n rb : ℕ) (dir : OrderedMap ℕ (DurableFile UInt8)) :
    (∃ pre f, ((Wal.create dir n rb).open .never).1.Ends pre f) ∧
      Wal.replayed ((Wal.create dir n rb).open .never).1.dir = Wal.replayed dir := by
  set w := (Wal.create dir n rb).scanned with hw
  have hdir : w.dir = dir.map Wal.repair := rfl
  rw [← replayed_map_repair dir, ← hdir]
  unfold Wal.open
  dsimp only
  rw [← hw]
  rcases hlast : w.dir.entries.getLast? with _ | ⟨id, f⟩
  · have hnil : w.dir = ∅ := OrderedMap.ext_entries (List.getLast?_eq_none_iff.mp hlast)
    have hends : (w.openFile 1).Ends [] .new := by
      show (w.dir.insert 1 ((w.dir.find? 1).getD .new)).entries = _
      rw [hnil]
      rfl
    obtain ⟨w', hres, hends', hsame⟩ := openActiveSegment_replayed 1 true hends (fun _ => rfl)
    rw [hres]
    refine ⟨hends', hsame.trans ?_⟩
    rw [replayed_of_ends hends, hnil]
    rfl
  · obtain ⟨pre, hsnoc⟩ := List.getLast?_eq_some_iff.mp hlast
    have hends₀ : ({ w with isOpen := true, activeId := id } : Wal UInt8).Ends pre f := hsnoc
    have hends : (w.openFile id).Ends pre f := hends₀.onActive (fun f => f)
    have hempty : decide (f.data.length < kHeaderSize) = true → f.data = [] := by
      intro hs
      obtain ⟨p, -, hp⟩ := List.mem_map.mp (hdir ▸ hsnoc ▸ List.mem_append_right pre
        (List.mem_singleton.mpr rfl) : (id, f) ∈ (dir.map Wal.repair).entries)
      obtain rfl : Wal.repair p.2 = f := (Prod.mk.inj hp).2
      exact repair_short (by simpa [Short] using hs)
    obtain ⟨w', hres, hends', hsame⟩ := openActiveSegment_replayed id _ hends hempty
    simp only [hres]
    refine ⟨hends', hsame.trans ?_⟩
    rw [replayed_of_ends hends]
    exact (replayed_of_ends hends₀).symm

namespace Wal

/-- A log opened on a directory, with nothing acknowledged yet. -/
def Session.start (n rb : ℕ) (dir : OrderedMap ℕ (DurableFile UInt8)) : Session :=
  ⟨((create dir n rb).open .never).1, []⟩

/-- One call, its payload under the cap. -/
def Session.Next (s s' : Session) : Prop := ∃ c : Call, c.Fits ∧ s' = s.step c

/-- One call the code gets right. -/
def Session.SoundNext (s s' : Session) : Prop :=
  ∃ c : Call, c.Fits ∧ Sound s.log c ∧ s' = s.step c

/-- Along sound calls every acknowledged record stays recoverable, under its own number. -/
theorem recoverable_of_sound (n rb : ℕ) (dir : OrderedMap ℕ (DurableFile UInt8))
    (hlisted : FileNames.Listable dir) (hdir : ((replayed dir).map Record.seqno).Nodup)
    (s : Session) (hrun : Relation.ReflTransGen Session.SoundNext (Session.start n rb dir) s) :
    s.Recoverable := by
  have hkept : Kept s := by
    induction hrun with
    | refl =>
      obtain ⟨hends, hsame⟩ := open_replayed n rb dir
      have hcreated : (create dir n rb).Listable := ⟨hlisted, Nat.zero_lt_succ _⟩
      exact ⟨hcreated.open .never, hends, by simp [Session.start], by
        show ((replayed ((create dir n rb).open .never).1.dir).map Record.seqno).Nodup
        rwa [hsame]⟩
    | tail _ hnext ih =>
      obtain ⟨c, hf, hs, rfl⟩ := hnext
      exact ih.step hf hs
  rw [recoverable_iff, hkept.listable.dir.listed_eq]
  exact ⟨hkept.acked, hkept.distinct⟩

/-- A torn write into the first segment, put out of the way by a roll. -/
theorem recoverable_after_roll :
    ∃ s, Relation.ReflTransGen Session.SoundNext (Session.start 1 4096 ∅) s ∧
      s.acked = [⟨false, [0x63], [0x64], 1⟩] ∧ s.Recoverable := by
  let torn := (Session.start 1 4096 ∅).step (.append (.record 1) (.put [0x61] [0x62]))
  let rolled := torn.step (.roll .never)
  have h₁ : Session.SoundNext (Session.start 1 4096 ∅) torn :=
    ⟨.append (.record 1) (.put [0x61] [0x62]), by decide,
      ⟨trivial, fun _ => by decide, fun _ => ⟨.inr (by decide), .inl (show 1 < _ by decide)⟩⟩,
      rfl⟩
  have h₂ : Session.SoundNext torn rolled := ⟨.roll .never, trivial, ⟨trivial, by decide⟩, rfl⟩
  have h₃ : Session.SoundNext rolled (rolled.step (.append .never (.put [0x63] [0x64]))) :=
    ⟨.append .never (.put [0x63] [0x64]), by decide,
      ⟨trivial, fun _ => by decide, fun _ => ⟨.inr (by decide), .inr ⟨by decide, by decide⟩⟩⟩,
      rfl⟩
  have hrun := ((Relation.ReflTransGen.single h₁).tail h₂).tail h₃
  exact ⟨_, hrun, by decide, recoverable_of_sound 1 4096 ∅ listable_empty (by decide) _ hrun⟩

/-- One byte of a failed write is enough to lose the next acknowledged record. -/
theorem not_always_recoverable :
    ¬∀ (n rb : ℕ) (dir : OrderedMap ℕ (DurableFile UInt8)) (s : Session),
      FileNames.Listable dir → ((replayed dir).map Record.seqno).Nodup →
      Relation.ReflTransGen Session.Next (Session.start n rb dir) s → s.Recoverable := by
  intro h
  let torn := (Session.start 1 4096 ∅).step (.append (.record 1) (.put [0x61] [0x62]))
  have h₁ : Session.Next (Session.start 1 4096 ∅) torn := ⟨_, by decide, rfl⟩
  have h₂ : Session.Next torn (torn.step (.append .never (.put [0x63] [0x64]))) :=
    ⟨_, by decide, rfl⟩
  have hrec := h 1 4096 ∅ _ listable_empty (by decide)
    ((Relation.ReflTransGen.single h₁).tail h₂)
  have hmem := ((recoverable_iff _).mp hrec).1 ⟨false, [0x63], [0x64], 1⟩ (by decide)
  exact absurd hmem (by decide)

/-- The flush of the third record fails with the first two, acknowledged, still in the buffer. -/
example : ¬((((Session.start 3 4096 ∅).step (.append .never (.put [0x61] [0x62]))).step
    (.append .never (.put [0x62] [0x63]))).step
      (.append (.recordFlush 81) (.put [0x63] [0x64]))).Recoverable := by
  rw [recoverable_iff]
  decide

end Wal
end LsmKv
