import LsmKv.WalInvariant
import LsmKv.WalRecovery

/-!
# Where the writer and the scanner agree

`append` bounds key and value each by the cap that `scan_segment` puts on the whole payload.
A closed log is read back record for record exactly when every payload stays under the cap;
the first record above it hides the rest of its segment.
-/

namespace LsmKv
open WalFormat WalLog

namespace Wal

/-- A mutation as a caller of `append_put` or `append_del` states it. -/
inductive Request where
  | put (key value : Bytes)
  | del (key : Bytes)
  deriving DecidableEq, Repr

namespace Request

def isDel : Request → Bool
  | put _ _ => false
  | del _ => true

def key : Request → Bytes
  | put key _ => key
  | del key => key

def value : Request → Bytes
  | put _ value => value
  | del _ => []

def record (q : Request) (seqno : ℕ) : Record := ⟨q.isDel, q.key, q.value, seqno⟩

/-- The payload length `append` computes for the request. -/
def payloadLen (q : Request) : ℕ := kMinPayload + q.key.length + q.value.length

/-- `append` throws for none of its argument checks. -/
def Accepted (q : Request) : Prop :=
  q.key ≠ [] ∧ q.key.length ≤ kMaxPayload ∧ q.value.length ≤ kMaxPayload

end Request

def request (cut : Cut) (q : Request) (w : Wal UInt8) : Wal UInt8 × Except Error ℕ :=
  match q with
  | .put key value => w.appendPut cut key value
  | .del key => w.appendDel cut key

theorem request_eq (cut : Cut) (q : Request) (w : Wal UInt8) :
    w.request cut q = w.append cut q.isDel q.key q.value := by cases q <;> rfl

/-- Requests one after another, with the records that were acknowledged. -/
def requestAll : List Request → Wal UInt8 → Wal UInt8 × List Record
  | [], w => (w, [])
  | q :: qs, w => match w.request .never q with
    | (w, .error _) => requestAll qs w
    | (w, .ok seqno) => ((requestAll qs w).1, q.record seqno :: (requestAll qs w).2)

/-- What opening a directory reports and replays. -/
def recover (fsync_every_n roll_bytes : ℕ) (dir : OrderedMap ℕ (DurableFile UInt8)) :
    Except Error (WalRecoveryReport × List Record) :=
  ((create dir fsync_every_n roll_bytes).open .never).2

end Wal

theorem Wal.Request.Accepted.check {q : Wal.Request} (h : q.Accepted) :
    Wal.checkAppend true q.key q.value = .ok () := by
  simp [Wal.checkAppend, h.1, not_lt.mpr h.2.1, not_lt.mpr h.2.2]

theorem Wal.Request.Accepted.lt {q : Wal.Request} (h : q.Accepted) :
    q.payloadLen < 2 ^ 32 := by
  have h₁ := h.2.1
  have h₂ := h.2.2
  simp only [Wal.Request.payloadLen, kMinPayload, kMaxPayload] at *
  omega

theorem readable_record {q : Wal.Request} {seqno : ℕ} (hs : seqno < 2 ^ 64)
    (hf : q.payloadLen ≤ kMaxPayload) : Readable (q.record seqno) :=
  ⟨hf, hs, fun hd => by cases q <;> simp_all [Wal.Request.record, Wal.Request.isDel,
    Wal.Request.value]⟩

/-- A record that some request was answered with. -/
def Answers (q : Wal.Request) (r : Record) : Prop := r.seqno < 2 ^ 64 ∧ r = q.record r.seqno

theorem requestAll_render {l : Wal Record} (hl : Live l) (ho : l.isOpen = true)
    {qs : List Wal.Request} (hq : ∀ q ∈ qs, q.Accepted) :
    ∃ l' rs, Wal.requestAll qs (render l) = (render l', rs) ∧ Live l' ∧ l'.isOpen = true ∧
      records l'.dir = records l.dir ++ rs ∧ List.Forall₂ Answers qs rs := by
  induction qs generalizing l with
  | nil => exact ⟨l, [], rfl, hl, ho, by simp, .nil⟩
  | cons q qs ih =>
    obtain ⟨pre, f, he, -⟩ := id hl
    have hcheck : Wal.checkAppend l.isOpen q.key q.value = .ok () :=
      ho ▸ (hq q List.mem_cons_self).check
    obtain ⟨h₁, h₂, h₃, h₄, -⟩ := appendAs_ok hl q.isDel hcheck ((l.lastSeqno + 1) % 2 ^ 64)
    obtain ⟨l', rs, hrun, hl', ho', hrec, hans⟩ :=
      ih h₂ (h₄.trans ho) (fun q hq' => hq q (List.mem_cons_of_mem _ hq'))
    refine ⟨l', q.record ((l.lastSeqno + 1) % 2 ^ 64) :: rs, ?_, hl', ho', ?_, ?_⟩
    · rw [Wal.requestAll, Wal.request_eq, append_render he, h₁]
      simp only [hrun]
    · rw [hrec, h₃]
      simp [Wal.Request.record]
    · exact .cons ⟨Nat.mod_lt _ (by norm_num), rfl⟩ hans

/-! ## Recovery of a closed log -/

theorem WalLog.Live.close {l : Wal Record} (h : Live l) (ho : l.isOpen = true) :
    Sealed l.close.dir ∧ records l.close.dir = records l.dir := by
  obtain ⟨pre, f, he, hp⟩ := h
  have hc : l.close = l.sync.closeFile := by rw [Wal.close, if_pos ho]
  have hs : l.sync.closeFile.Ends pre f.sync := he.sync
  rw [hc]
  refine ⟨fun p hmem => ?_, ?_⟩
  · rw [hs] at hmem
    rcases List.mem_append.mp hmem with hmem | hmem
    · exact hp p hmem
    · obtain rfl := List.mem_singleton.mp hmem
      rfl
  · rw [records_of_ends hs, records_of_ends he]
    rfl

/-- A record as `append` writes it: under the 32-bit length field, and readable if it fits. -/
def Written (r : Record) : Prop := payloadSize r < 2 ^ 32 ∧ (Fits r → Readable r)

theorem Answers.written {q : Wal.Request} {r : Record} (h : Answers q r) (hq : q.Accepted) :
    Written r := by
  obtain ⟨hs, he⟩ := h
  rw [he]
  exact ⟨hq.lt, fun hf => readable_record hs hf⟩

theorem dirReads_sealed {e : OrderedMap ℕ (DurableFile Record)} (hs : Sealed e)
    (hw : ∀ r ∈ records e, Written r) :
    DirReads (e.map renderFile) (e.map WalLog.repair) := by
  have hmem : ∀ p ∈ e.entries, ∀ r ∈ p.2.data, Written r := fun p hp r hr =>
    hw r (List.mem_flatMap.mpr ⟨p, hp, hr⟩)
  have hread : ∀ p ∈ e.entries, Reads (segmentData p.2.data) (survivors p.2.data) :=
    fun p hp => reads_survivors (fun r hr => (hmem p hp r hr).2) (fun r hr => (hmem p hp r hr).1)
  constructor
  · rw [OrderedMap.entries_map, OrderedMap.entries_map, List.forall₂_map_left_iff,
      List.forall₂_map_right_iff, List.forall₂_same]
    refine fun p hp => ⟨rfl, .whole ?_ ?_ (hread p hp)⟩
    · show renderFile p.2 = _
      conv_lhs => rw [hs p hp]
      exact renderFile_durable _
    · show WalLog.repair p.2 = _
      have htake : p.2.data.take (survivors p.2.data).length = survivors p.2.data :=
        (List.prefix_iff_eq_take.mp (List.takeWhile_prefix _)).symm
      have hsync : p.2.synced = p.2.data.length := congrArg DurableFile.synced (hs p hp)
      have hle : (survivors p.2.data).length ≤ p.2.data.length :=
        (List.takeWhile_prefix _).length_le
      apply DurableFile.ext
      · exact htake
      · simp [WalLog.repair, DurableFile.truncate, hsync, hle]
  · intro p hp
    obtain ⟨q, hq, rfl⟩ := List.mem_map.mp ((List.dropLast_sublist _).subset hp)
    exact (hread q hq).not_short

/-- What recovery replays from a closed log, and when it finds nothing to truncate. -/
theorem recover_sealed {e : OrderedMap ℕ (DurableFile Record)} (hs : Sealed e)
    (hw : ∀ r ∈ records e, Written r) (n rb : ℕ) :
    Wal.recover n rb (e.map renderFile) =
      .ok (Wal.verify (e.map renderFile), e.entries.flatMap (fun p => survivors p.2.data)) := by
  have hd := dirReads_sealed hs hw
  have hopen := open_render (b := Wal.create (e.map renderFile) n rb)
    (l := Wal.create (e.map WalLog.repair) n rb) hd rfl
  have hrep : (e.map WalLog.repair).map WalLog.repair = e.map WalLog.repair :=
    OrderedMap.ext_entries (map_repair_right hd.files)
  have hrec : records (e.map WalLog.repair) =
      e.entries.flatMap (fun p => survivors p.2.data) := by
    rw [records, OrderedMap.entries_map, List.flatMap_map]
    refine List.flatMap_congr (fun p _ => ?_)
    exact (List.prefix_iff_eq_take.mp (List.takeWhile_prefix _)).symm
  have hreplay : (WalLog.open (Wal.create (e.map WalLog.repair) n rb)).2 =
      e.entries.flatMap (fun p => survivors p.2.data) := by
    rw [open_snd, ← hrec]
    exact congrArg records hrep
  rw [Wal.recover, hopen, hreplay]
  rfl

theorem truncated_sealed {e : OrderedMap ℕ (DurableFile Record)}
    (hw : ∀ r ∈ records e, Written r) :
    (Wal.verify (e.map renderFile)).truncated = 0 ↔ ∀ r ∈ records e, Fits r := by
  have hclean : ∀ p ∈ e.entries,
      (Wal.scanSegment (segmentData p.2.data)).1.clean = true ↔ ∀ r ∈ p.2.data, Fits r := by
    intro p hp
    have hmem : ∀ r ∈ p.2.data, Written r := fun r hr =>
      hw r (List.mem_flatMap.mpr ⟨p, hp, hr⟩)
    rw [(reads_survivors (fun r hr => (hmem r hr).2) (fun r hr => (hmem r hr).1)).clean_iff]
    exact segmentData_survivors_iff p.2.data
  have hzero : (Wal.verify (e.map renderFile)).truncated = 0 ↔
      ∀ p ∈ e.entries, (Wal.scanSegment (segmentData p.2.data)).1.clean = true := by
    show ((e.map renderFile).entries.foldl Wal.scanReport {}).truncated = 0 ↔ _
    rw [scanReport_truncated, Nat.zero_add, List.countP_eq_zero, OrderedMap.entries_map,
      List.forall_mem_map]
    simp only [Bool.not_eq_true', Bool.not_eq_false]
    exact Iff.rfl
  rw [hzero]
  constructor
  · intro h r hr
    obtain ⟨p, hp, hr⟩ := List.mem_flatMap.mp hr
    exact (hclean p hp).mp (h p hp) r hr
  · exact fun h p hp => (hclean p hp).mpr (fun r hr => h r (List.mem_flatMap.mpr ⟨p, hp, hr⟩))

/-- When every record fits, recovery replays all of them. -/
theorem survivors_of_fits {e : OrderedMap ℕ (DurableFile Record)}
    (h : ∀ r ∈ records e, Fits r) :
    e.entries.flatMap (fun p => survivors p.2.data) = records e := by
  refine List.flatMap_congr (fun p hp => ?_)
  exact List.takeWhile_eq_self_iff.mpr (fun r hr =>
    decide_eq_true (h r (List.mem_flatMap.mpr ⟨p, hp, hr⟩)))

/-! ## A log written from an empty directory -/

namespace Wal

/-- A log opened on an empty directory. -/
def fresh (fsync_every_n roll_bytes : ℕ) : Wal UInt8 :=
  ((create ∅ fsync_every_n roll_bytes).open .never).1

/-- Every request is acknowledged, and closing and reopening replays exactly what was
acknowledged and truncates nothing. -/
def Faithful (n rb n' rb' : ℕ) (qs : List Request) : Prop :=
  let run := requestAll qs (fresh n rb)
  List.Forall₂ Answers qs run.2 ∧
    ∃ report, recover n' rb' run.1.close.dir = .ok (report, run.2) ∧ report.truncated = 0

end Wal

theorem fresh_render (n rb : ℕ) :
    ∃ l, Wal.fresh n rb = render l ∧ Live l ∧ l.isOpen = true ∧ records l.dir = [] := by
  have hd : DirReads (∅ : OrderedMap ℕ (DurableFile UInt8)) ∅ := ⟨.nil, by simp⟩
  have hopen := open_render (b := Wal.create ∅ n rb) (l := Wal.create ∅ n rb) hd rfl
  refine ⟨(WalLog.open (Wal.create ∅ n rb)).1, by rw [Wal.fresh, hopen], ⟨[], .new, rfl, by simp⟩,
    rfl, rfl⟩

/-- What a session of accepted requests leaves behind, as records. -/
theorem requestAll_closed (n rb : ℕ) {qs : List Wal.Request} (hq : ∀ q ∈ qs, q.Accepted) :
    ∃ e rs, (Wal.requestAll qs (Wal.fresh n rb)).1.close.dir = e.map renderFile ∧
      (Wal.requestAll qs (Wal.fresh n rb)).2 = rs ∧ Sealed e ∧ records e = rs ∧
      List.Forall₂ Answers qs rs := by
  obtain ⟨l, hl, hlive, ho, hnil⟩ := fresh_render n rb
  obtain ⟨l', rs, hrun, hlive', ho', hrec, hans⟩ := requestAll_render hlive ho hq
  obtain ⟨pre, f, he, -⟩ := id hlive'
  obtain ⟨hs, hr⟩ := hlive'.close ho'
  refine ⟨l'.close.dir, rs, ?_, by rw [hl, hrun], hs, by rw [hr, hrec, hnil, List.nil_append],
    hans⟩
  rw [hl, hrun, close_render he]
  rfl

theorem fits_iff_of_answers {qs : List Wal.Request} {rs : List Record}
    (h : List.Forall₂ Answers qs rs) :
    (∀ r ∈ rs, Fits r) ↔ ∀ q ∈ qs, q.payloadLen ≤ kMaxPayload := by
  induction h with
  | nil => simp
  | @cons q r qs rs h _ ih =>
    have hr : Fits r ↔ q.payloadLen ≤ kMaxPayload := by
      rw [h.2]
      exact Iff.rfl
    simp only [List.forall_mem_cons, ih, hr]

theorem written_of_answers {qs : List Wal.Request} {rs : List Record}
    (h : List.Forall₂ Answers qs rs) (hq : ∀ q ∈ qs, q.Accepted) : ∀ r ∈ rs, Written r := by
  induction h with
  | nil => simp
  | cons h _ ih =>
    rw [List.forall_mem_cons]
    exact ⟨h.written (hq _ List.mem_cons_self),
      ih (fun q hq' => hq q (List.mem_cons_of_mem _ hq'))⟩

/-- A session of accepted requests: each is answered, and what they wrote reads back as it
was exactly when every record fits. -/
theorem requestAll_faithful (n rb n' rb' : ℕ) {qs : List Wal.Request}
    (hq : ∀ q ∈ qs, q.Accepted) :
    List.Forall₂ Answers qs (Wal.requestAll qs (Wal.fresh n rb)).2 ∧
      (Wal.Faithful n rb n' rb' qs ↔ ∀ r ∈ (Wal.requestAll qs (Wal.fresh n rb)).2, Fits r) := by
  obtain ⟨e, rs, hdir, hrs, hs, hrec, hans⟩ := requestAll_closed n rb hq
  have hw : ∀ r ∈ records e, Written r := hrec ▸ written_of_answers hans hq
  have htrunc := truncated_sealed hw
  refine ⟨hrs ▸ hans, ?_⟩
  rw [hrs, ← hrec]
  unfold Wal.Faithful
  simp only [hdir, hrs, recover_sealed hs hw]
  constructor
  · rintro ⟨-, report, hreport, hzero⟩
    obtain ⟨rfl, -⟩ := Prod.mk.inj (Except.ok.inj hreport)
    exact htrunc.mp hzero
  · intro h
    exact ⟨hans, _, by rw [survivors_of_fits h, hrec], htrunc.mpr h⟩

namespace Wal

/-- The writer and the scanner agree on a session exactly when no payload exceeds the cap. Its
segments, which all lie in one directory, are taken to have numbers below twelve digits. -/
theorem faithful_iff_payloadLen (n rb n' rb' : ℕ) (qs : List Request)
    (hq : ∀ q ∈ qs, q.Accepted) :
    Faithful n rb n' rb' qs ↔ ∀ q ∈ qs, q.payloadLen ≤ kMaxPayload := by
  obtain ⟨hans, hiff⟩ := requestAll_faithful n rb n' rb' hq
  rw [hiff, fits_iff_of_answers hans]

theorem faithful_put_del :
    Faithful 1 64 2 64 [.put [0x61] [0x62], .del [0x61], .put [0x63] []] :=
  (faithful_iff_payloadLen 1 64 2 64 _ (by
    simp [Request.Accepted, Request.key, Request.value, kMaxPayload])).mpr (by
    simp [Request.payloadLen, Request.key, Request.value, kMinPayload, kMaxPayload])

/-- A one-byte key with a value of exactly the cap is accepted and lost. -/
theorem not_faithful_oversize :
    ¬∀ (n rb n' rb' : ℕ) (qs : List Request), (∀ q ∈ qs, q.Accepted) →
      Faithful n rb n' rb' qs := by
  intro h
  obtain ⟨value, hv⟩ : ∃ value : Bytes, value.length = kMaxPayload :=
    ⟨List.replicate kMaxPayload 0, List.length_replicate⟩
  have hq : ∀ q ∈ [Request.put [0x61] value], q.Accepted := by
    intro q hmem
    obtain rfl := List.mem_singleton.mp hmem
    exact ⟨List.cons_ne_nil _ _, by simp [Request.key, kMaxPayload], hv.le⟩
  obtain ⟨hans, hiff⟩ := requestAll_faithful 1 4096 1 4096 hq
  have hfits := (fits_iff_of_answers hans).mp (hiff.mp (h 1 4096 1 4096 _ hq)) _
    List.mem_cons_self
  simp only [Request.payloadLen, Request.key, Request.value, hv, kMinPayload] at hfits
  omega

end Wal
end LsmKv
