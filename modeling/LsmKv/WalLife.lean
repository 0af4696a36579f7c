import LsmKv.WalCrash

/-!
# The life of a log

A log across any number of processes: opened, appended to, rolled, trimmed, closed, and
interrupted by crashes at any point of any operation. What lists the directory sees the segments
whose names have kept their extension. A record log stands behind the bytes all along; here for
every operation that completes.
-/

namespace LsmKv
open WalFormat WalLog FileNames

namespace Wal

/-- The records recovery would find in the synced part of each file alone. -/
def syncedRecords (dir : OrderedMap ℕ (DurableFile UInt8)) : List Record :=
  dir.entries.flatMap (fun p => (scanSegment (p.2.data.take p.2.synced)).2)

/-- `open` by way of `list_segments`. -/
def openListed (cut : Cut) (w : Wal UInt8) :
    Wal UInt8 × Except Error (WalRecoveryReport × List Record) :=
  let x := ({ w with dir := listed w.dir } : Wal UInt8).open cut
  ({ x.1 with dir := x.1.dir.insertAll (unlisted w.dir) }, x.2)

/-- The directory when the scan of `open` is cut short after `n` segments. -/
def repairListed (n : ℕ) (dir : OrderedMap ℕ (DurableFile UInt8)) :
    OrderedMap ℕ (DurableFile UInt8) :=
  (repairFirst n (listed dir)).insertAll (unlisted dir)

/-- `remove_segments_covered` by way of `list_segments`, cut short after `n` segments. -/
def removeListed (watermark n : ℕ) (w : Wal UInt8) : Wal UInt8 :=
  ((listed w.dir).keys.take n).foldl (removeStep watermark) w

/-- A log with its past: the appended records, less those lost at crashes, the watermarks
removal was called with, and every record that was on stable storage at some time. -/
structure Life where
  wal : Wal UInt8
  log : List Record
  watermarks : List ℕ
  fsynced : List Record

namespace Life

def start (n rb : ℕ) : Life := ⟨create ∅ n rb, [], [], []⟩

def observe (w : Wal UInt8) (s : Life) : Life :=
  { s with wal := w, fsynced := s.fsynced ++ syncedRecords w.dir }

def append (q : Request) (s : Life) : Life :=
  match s.wal.request .never q with
  | (w, .ok seqno) => { s with log := s.log ++ [q.record seqno] }.observe w
  | (w, .error _) => s.observe w

def remove (watermark : ℕ) (w : Wal UInt8) (s : Life) : Life :=
  { s with watermarks := s.watermarks ++ [watermark] }.observe w

/-- A new process on what a crash left. As many of the last records as were on disk before
it and are no longer are lost; `inflight` is what the interrupted operation was appending. -/
def restart (n rb : ℕ) (dir : OrderedMap ℕ (DurableFile UInt8)) (inflight : List Record)
    (s : Life) : Life where
  wal := create dir n rb
  log := (s.log ++ inflight).take
    (s.log.length - (replayed s.wal.dir).length + (replayed dir).length)
  watermarks := s.watermarks
  fsynced := s.fsynced ++ syncedRecords dir

/-- What the scanner reads back. -/
def UnderCap (_ : Life) (c : Call) : Prop := c.Fits

/-- The counter has a number for the record. -/
def HasSeqno (s : Life) : Call → Prop
  | .append _ _ => s.wal.lastSeqno + 1 < 2 ^ 64
  | .roll _ => True

/-- The segment a roll begins gets a name that is found again. -/
def HasName (s : Life) : Call → Prop
  | .append _ q => s.wal.mustRoll (s.wal.nextRecord q.isDel q.key q.value) →
      s.wal.activeId + 1 < 10 ^ 11
  | .roll _ => s.wal.activeId + 1 < 10 ^ 11

/-- A call the log is durable under. -/
structure Fits (s : Life) (c : Call) : Prop where
  payload : c.Fits
  seqno : s.HasSeqno c
  name : s.HasName c

section
variable (Admits : Life → Call → Prop)

/-- A crash between two operations or inside one. `close` has no point of its own: its sync
either was or was not done. -/
inductive Crashes : Life → Life → Prop
  | idle (s : Life) (n rb : ℕ) {dir} (h : Crash s.wal.dir dir) :
      Crashes s (s.restart n rb dir [])
  | append (s : Life) (cut : Cut) (q : Request) (n rb : ℕ) {dir} (hq : Admits s (.append cut q))
      (h : Crash (s.wal.request cut q).1.dir dir) :
      Crashes s (s.restart n rb dir [s.wal.nextRecord q.isDel q.key q.value])
  | roll (s : Life) (cut : Cut) (n rb : ℕ) {dir} (hr : Admits s (.roll cut))
      (h : Crash (s.wal.roll cut).1.dir dir) : Crashes s (s.restart n rb dir [])
  | remove (s : Life) (watermark k n rb : ℕ) {dir}
      (h : Crash (s.wal.removeListed watermark k).dir dir) :
      Crashes s ((s.remove watermark (s.wal.removeListed watermark k)).restart n rb dir [])
  | scan (s : Life) (k n rb : ℕ) {dir} (ho : s.wal.isOpen = false)
      (h : Crash (repairListed k s.wal.dir) dir) : Crashes s (s.restart n rb dir [])
  | open (s : Life) (cut : Cut) (n rb : ℕ) {dir} (ho : s.wal.isOpen = false)
      (h : Crash (s.wal.openListed cut).1.dir dir) : Crashes s (s.restart n rb dir [])

/-- One operation, or a crash. A log is opened only when it is not open. -/
inductive Step : Life → Life → Prop
  | open (s : Life) (h : s.wal.isOpen = false) : Step s (s.observe (s.wal.openListed .never).1)
  | append (s : Life) (q : Request) (h : Admits s (.append .never q)) : Step s (s.append q)
  | roll (s : Life) (h : Admits s (.roll .never)) : Step s (s.observe (s.wal.roll .never).1)
  | remove (s : Life) (watermark : ℕ) : Step s (s.remove watermark
      (s.wal.removeListed watermark (listed s.wal.dir).keys.length))
  | close (s : Life) : Step s (s.observe s.wal.close)
  | crash {s s' : Life} (h : Crashes Admits s s') : Step s s'

/-- Recovery replays a block at the end of the log, in order, with every fsynced record that
no removal was allowed to take; and a crash now would cost less than a sync interval. -/
def Durable (s : Life) : Prop :=
  (s.wal.isOpen = false → ∃ report rs, (s.wal.openListed .never).2 = .ok (report, rs) ∧
    rs.Pairwise (fun a b => a.seqno < b.seqno) ∧ rs <:+ s.log ∧
    ∀ r ∈ s.fsynced, (∀ w ∈ s.watermarks, w < r.seqno) → r ∈ rs) ∧
  ∀ s', Crashes Admits s s' → s.log.length ≤ s'.log.length + (s.wal.fsyncEveryN - 1)

end

end Life

section
variable {w : Wal UInt8}

theorem Listable.openListed_eq (h : w.Listable) (cut : Cut) : w.openListed cut = w.open cut := by
  rw [openListed, h.dir.listed_eq, h.dir.unlisted_eq]
  rfl

theorem Listable.repairListed_eq (h : w.Listable) (n : ℕ) :
    repairListed n w.dir = repairFirst n w.dir := by
  rw [repairListed, h.dir.listed_eq, h.dir.unlisted_eq]
  rfl

theorem Listable.removeListed_eq (h : w.Listable) (watermark n : ℕ) :
    w.removeListed watermark n = w.removeFirst watermark n := by
  rw [removeListed, h.dir.listed_eq]
  rfl

end

end Wal

/-- A crash takes no file away and adds none. -/
theorem Crash.keys_eq {α : Type} {d d' : OrderedMap ℕ (DurableFile α)} (h : Crash d d') :
    d'.keys = d.keys := by
  have hkeys : List.Forall₂ Eq (d.entries.map Prod.fst) (d'.entries.map Prod.fst) := by
    rw [List.forall₂_map_left_iff, List.forall₂_map_right_iff]
    exact h.imp fun _ _ hpq => hpq.1
  rw [List.forall₂_eq_eq_eq] at hkeys
  exact hkeys.symm

theorem Crash.listable {d d' : OrderedMap ℕ (DurableFile UInt8)} (h : Crash d d')
    (hl : FileNames.Listable d) : FileNames.Listable d' := by
  intro id hid
  exact hl id (h.keys_eq ▸ hid)

/-! ## What a directory shows -/

theorem replayed_render {e : OrderedMap ℕ (DurableFile Record)}
    (h : ∀ r ∈ records e, Readable r) : Wal.replayed (e.map renderFile) = records e := by
  show (e.map renderFile).entries.flatMap (fun p => (Wal.scanSegment p.2.data).2) = _
  rw [OrderedMap.entries_map, List.flatMap_map]
  refine List.flatMap_congr (fun p hp => ?_)
  exact (reads_segmentData (fun r hr => h r (List.mem_flatMap.mpr ⟨p, hp, hr⟩))).replay

theorem syncedRecords_render {e : OrderedMap ℕ (DurableFile Record)}
    (h : ∀ r ∈ records e, Readable r) :
    Wal.syncedRecords (e.map renderFile) = durableRecords e := by
  rw [Wal.syncedRecords, OrderedMap.entries_map, List.flatMap_map]
  refine List.flatMap_congr (fun p hp => ?_)
  have hread : ∀ r ∈ p.2.data.take p.2.synced, Readable r := fun r hr =>
    h r (List.mem_flatMap.mpr ⟨p, hp, List.mem_of_mem_take hr⟩)
  have htake : (renderFile p.2).data.take (renderFile p.2).synced =
      segmentData (p.2.data.take p.2.synced) := by
    show (segmentData p.2.data).take (segmentData (p.2.data.take p.2.synced)).length = _
    conv_lhs => rw [← List.take_append_drop p.2.synced p.2.data, segmentData_append]
    rw [List.take_append_drop, List.take_left]
  show (Wal.scanSegment ((renderFile p.2).data.take (renderFile p.2).synced)).2 = _
  rw [htake]
  exact (reads_segmentData hread).replay

theorem replayed_dirReads {d : OrderedMap ℕ (DurableFile UInt8)}
    {e : OrderedMap ℕ (DurableFile Record)} (h : DirReads d e) :
    Wal.replayed d = records e := replayed_eq h.files

theorem syncedRecords_dirReads {d : OrderedMap ℕ (DurableFile UInt8)}
    {e : OrderedMap ℕ (DurableFile Record)} (h : DirReads d e) :
    Wal.syncedRecords d = records e := by
  rw [← replayed_dirReads h]
  refine List.flatMap_congr (fun p hp => ?_)
  obtain ⟨q, -, -, hq⟩ := forall₂_exists_right h.files hp
  have hd : p.2.data.take p.2.synced = p.2.data := by
    rcases hq with ⟨hg, -, -⟩ | ⟨hg, -, -⟩ <;> rw [hg] <;> exact List.take_length
  rw [hd]

/-! ## The invariant -/

/-- The record log `l` stands behind the bytes: an open or closed log renders it; before it is
opened, a directory reads as it. -/
inductive Stands (b : Wal UInt8) (l : Wal Record) : Prop
  | rendered (hb : b = render l) (hi : Intact l)
    (hc : l.isOpen = false → Sealed l.dir ∧ l.appendsSinceSync = 0)
  | created (n rb : ℕ) (hb : b = Wal.create b.dir n rb) (hl : l = Wal.create l.dir n rb)
    (hd : DirReads b.dir l.dir) (hs : Sealed l.dir)

structure Tracks (s : Wal.Life) (l : Wal Record) : Prop where
  listable : s.wal.Listable
  stands : Stands s.wal l
  readable : ∀ r ∈ records l.dir, Readable r
  increasing : (records l.dir).Pairwise (fun a b => a.seqno < b.seqno)
  suffix : records l.dir <:+ s.log
  fsynced : ∀ r ∈ s.fsynced, (∀ w ∈ s.watermarks, w < r.seqno) → r ∈ durableRecords l.dir

/-- What `open` needs of a log that is not open. -/
structure Unopened (b : Wal UInt8) (l : Wal Record) : Prop where
  files : DirReads b.dir l.dir
  shape : b = { render l with dir := b.dir }
  stable : Sealed l.dir
  fsync : 0 < l.fsyncEveryN
  lag : l.appendsSinceSync = 0

theorem dirReads_render {e : OrderedMap ℕ (DurableFile Record)} (hs : Sealed e)
    (hr : ∀ r ∈ records e, Readable r) : DirReads (e.map renderFile) e := by
  have hread : ∀ p ∈ e.entries, Reads (segmentData p.2.data) p.2.data := fun p hp =>
    reads_segmentData (fun r hrp => hr r (List.mem_flatMap.mpr ⟨p, hp, hrp⟩))
  constructor
  · rw [OrderedMap.entries_map, List.forall₂_map_left_iff, List.forall₂_same]
    exact fun p hp => ⟨rfl, .whole (renderFile_of_durable (hs p hp)) (hs p hp) (hread p hp)⟩
  · intro p hp
    obtain ⟨q, hq, rfl⟩ := List.mem_map.mp ((List.dropLast_sublist _).subset hp)
    exact (hread q hq).not_short

theorem create_fsyncEveryN_pos {α : Type} (dir : OrderedMap ℕ (DurableFile α)) (n rb : ℕ) :
    0 < (Wal.create dir n rb).fsyncEveryN := by
  show 0 < if n = 0 then 1 else n
  split <;> omega

section
variable {b : Wal UInt8} {l : Wal Record}

theorem Stands.unopened (h : Stands b l) (hr : ∀ r ∈ records l.dir, Readable r)
    (ho : b.isOpen = false) : Unopened b l := by
  rcases h with ⟨rfl, hi, hc⟩ | ⟨n, rb, hb, hl, hd, hs⟩
  · obtain ⟨hs, hlag⟩ := hc ho
    exact ⟨dirReads_render hs hr, rfl, hs, Nat.zero_lt_of_lt hi.lag, hlag⟩
  · refine ⟨hd, ?_, hs, ?_, ?_⟩
    · rw [hl]
      exact hb
    · rw [hl]
      exact create_fsyncEveryN_pos l.dir n rb
    · rw [hl]
      rfl

theorem Stands.replayed (h : Stands b l) (hr : ∀ r ∈ records l.dir, Readable r) :
    Wal.replayed b.dir = records l.dir := by
  rcases h with ⟨rfl, -, -⟩ | ⟨n, rb, -, -, hd, -⟩
  · exact replayed_render hr
  · exact replayed_dirReads hd

theorem Stands.syncedRecords (h : Stands b l) (hr : ∀ r ∈ records l.dir, Readable r) :
    Wal.syncedRecords b.dir = durableRecords l.dir := by
  rcases h with ⟨rfl, -, -⟩ | ⟨n, rb, -, -, hd, hs⟩
  · exact syncedRecords_render hr
  · rw [syncedRecords_dirReads hd, durableRecords_of_sealed hs]

theorem Stands.fsyncEveryN (h : Stands b l) : b.fsyncEveryN = l.fsyncEveryN := by
  rcases h with ⟨rfl, -, -⟩ | ⟨n, rb, hb, hl, -, -⟩
  · rfl
  · rw [hb, hl]
    rfl

/-- How far the records on disk are ahead of the stable ones. -/
theorem Stands.lag (h : Stands b l) :
    (records l.dir).length ≤ (durableRecords l.dir).length + (l.fsyncEveryN - 1) := by
  rcases h with ⟨-, hi, -⟩ | ⟨-, -, -, -, -, hs⟩
  · obtain ⟨pre, f, he, hp, hle⟩ := hi.live
    have hlt := hi.lag
    have := f.synced_le
    rw [durableRecords_snoc he hp, records_snoc he]
    simp only [List.length_append, List.length_take]
    omega
  · rw [durableRecords_of_sealed hs]
    exact Nat.le_add_right _ _

end

/-! ## One operation -/

/-- An operation that appends `added` and may take what `watermarks` cover. -/
structure Moves (l l' : Wal Record) (added : List Record) (watermarks : List ℕ) : Prop where
  records : records l'.dir <:+ records l.dir ++ added
  durable : ∀ r ∈ durableRecords l.dir, (∀ w ∈ watermarks, w < r.seqno) →
    r ∈ durableRecords l'.dir

/-- An operation that appends nothing and takes nothing. -/
theorem Moves.of_records {l l' : Wal Record} (h : WalLog.records l'.dir = WalLog.records l.dir)
    (hd : ∀ r ∈ durableRecords l.dir, r ∈ durableRecords l'.dir) (watermarks : List ℕ) :
    Moves l l' [] watermarks := by
  refine ⟨?_, fun r hr _ => hd r hr⟩
  have hnil : WalLog.records l'.dir = WalLog.records l.dir ++ [] := by rw [h, List.append_nil]
  exact hnil ▸ List.suffix_rfl

theorem Moves.refl (l : Wal Record) (watermarks : List ℕ) : Moves l l [] watermarks :=
  .of_records rfl (fun _ hr => hr) watermarks

section
variable {s : Wal.Life} {l l' : Wal Record}

theorem Tracks.next (h : Tracks s l) {b : Wal UInt8} {added : List Record}
    {watermarks : List ℕ} (hl : b.Listable) (hst : Stands b l')
    (hinc : (records l'.dir).Pairwise (fun a b => a.seqno < b.seqno))
    (hm : Moves l l' added watermarks) (hr : ∀ r ∈ added, Readable r) :
    Tracks ⟨b, s.log ++ added, s.watermarks ++ watermarks,
      s.fsynced ++ Wal.syncedRecords b.dir⟩ l' := by
  obtain ⟨front, hlog⟩ := h.suffix
  have hread : ∀ r ∈ records l'.dir, Readable r := by
    intro r hmem
    rcases List.mem_append.mp (hm.records.subset hmem) with hmem | hmem
    · exact h.readable r hmem
    · exact hr r hmem
  refine ⟨hl, hst, hread, hinc, ?_, fun r hmem hw => ?_⟩
  · show records l'.dir <:+ s.log ++ added
    rw [← hlog, List.append_assoc]
    exact hm.records.trans (List.suffix_append _ _)
  · rcases List.mem_append.mp hmem with hmem | hmem
    · refine hm.durable r (h.fsynced r hmem (fun w hin => ?_)) (fun w hin => ?_)
      · exact hw w (List.mem_append_left _ hin)
      · exact hw w (List.mem_append_right _ hin)
    · rwa [hst.syncedRecords hread] at hmem

theorem Tracks.observe (h : Tracks s l) {b : Wal UInt8} (hl : b.Listable) (hst : Stands b l')
    (hinc : (records l'.dir).Pairwise (fun a b => a.seqno < b.seqno)) (hm : Moves l l' [] []) :
    Tracks (s.observe b) l' := by
  have hnext := h.next hl hst hinc hm (by simp)
  rwa [List.append_nil, List.append_nil] at hnext

/-- An operation that changed nothing. -/
theorem Tracks.same (h : Tracks s l) {b : Wal UInt8} (hb : b = s.wal) : Tracks (s.observe b) l :=
  h.observe (hb ▸ h.listable) (hb ▸ h.stands) h.increasing (.refl l [])

theorem Tracks.open (h : Tracks s l) (ho : s.wal.isOpen = false) :
    Tracks (s.observe (s.wal.openListed .never).1) (WalLog.open l).1 := by
  rw [h.listable.openListed_eq]
  have hu := h.stands.unopened h.readable ho
  have hrep : l.dir.map WalLog.repair = l.dir :=
    OrderedMap.ext_entries (map_repair_right hu.files.files)
  obtain ⟨hi, hopen, hrec, hs⟩ := intact_open hu.stable hrep h.increasing hu.fsync hu.lag
  have hb : (s.wal.open .never).1 = render (WalLog.open l).1 :=
    congrArg Prod.fst (open_render hu.files hu.shape)
  refine h.observe (h.listable.open .never) (.rendered hb hi (by simp [hopen])) hi.increasing
    (.of_records hrec (fun r hr => ?_) [])
  rw [durableRecords_of_sealed hs, hrec]
  rwa [durableRecords_of_sealed hu.stable] at hr

theorem Intact.appendAs {l : Wal Record} (h : Intact l) (del : Bool) (key value : Bytes)
    {seqno : ℕ} (hs : l.lastSeqno < seqno) :
    Intact (appendAs seqno del key value l).1 ∧
      durableRecords l.dir <+: durableRecords (appendAs seqno del key value l).1.dir := by
  rw [WalLog.appendAs]
  rcases Wal.checkAppend l.isOpen key value with e | u
  · exact ⟨h, List.prefix_rfl⟩
  dsimp only
  split
  · refine ⟨h.rollSegment.appendRecord hs, ?_⟩
    refine List.IsPrefix.trans ?_ (durableRecords_appendRecord h.toLive.rollSegment _)
    rw [durableRecords_rollSegment h.toLive]
    exact durableRecords_le h.toLive
  · exact ⟨h.appendRecord hs, durableRecords_appendRecord h.toLive _⟩

theorem isOpen_of_checkAppend {isOpen : Bool} {key value : Bytes} {u : Unit}
    (h : Wal.checkAppend isOpen key value = .ok u) : isOpen = true := by
  rcases ho : isOpen with _ | _
  · simp [Wal.checkAppend, ho] at h
  · rfl

/-- A request the log turns down changes nothing. -/
theorem Wal.request_error {cut : Wal.Cut} {q : Wal.Request} {b : Wal UInt8} {e : Error}
    (h : Wal.checkAppend b.isOpen q.key q.value = .error e) : b.request cut q = (b, .error e) := by
  rw [Wal.request_eq, Wal.append, h]

theorem Tracks.append (h : Tracks s l) {q : Wal.Request} (hq : s.Fits (.append .never q)) :
    ∃ l', Tracks (s.append q) l' := by
  rcases hcheck : Wal.checkAppend s.wal.isOpen q.key q.value with e | u
  · refine ⟨l, ?_⟩
    rw [Wal.Life.append, Wal.request_error hcheck]
    exact h.same rfl
  rcases h.stands with ⟨hb, hi, hc⟩ | ⟨n, rb, hb, -, -, -⟩
  · have hlast : s.wal.lastSeqno = l.lastSeqno := by rw [hb]; rfl
    have hseq : (l.lastSeqno + 1) % 2 ^ 64 = l.lastSeqno + 1 :=
      Nat.mod_eq_of_lt (hlast ▸ hq.seqno)
    have hopen := isOpen_of_checkAppend hcheck
    have hlopen : l.isOpen = true := by rw [hb] at hopen; exact hopen
    have hcheck' : Wal.checkAppend l.isOpen q.key q.value = .ok () := by
      rw [hlopen, ← hopen]
      exact hcheck
    obtain ⟨pre, f, he, -⟩ := hi.toLive
    obtain ⟨hok, -, hrec, hopen', -⟩ := appendAs_ok hi.toLive q.isDel hcheck' (l.lastSeqno + 1)
    obtain ⟨hi', hd⟩ := Intact.appendAs hi q.isDel q.key q.value (Nat.lt_add_one l.lastSeqno)
    have hm : Moves l (appendAs (l.lastSeqno + 1) q.isDel q.key q.value l).1
        [q.record (l.lastSeqno + 1)] [] := ⟨hrec ▸ List.suffix_rfl, fun r hr _ => hd.subset hr⟩
    have hread : ∀ r ∈ [q.record (l.lastSeqno + 1)], Readable r := by
      intro r hr
      obtain rfl := List.mem_singleton.mp hr
      exact readable_record (hlast ▸ hq.seqno) hq.payload
    have hreq : s.wal.request .never q =
        (render (appendAs (l.lastSeqno + 1) q.isDel q.key q.value l).1, .ok (l.lastSeqno + 1)) := by
      rw [hb, Wal.request_eq, append_render he, hseq, hok]
    have hlist := h.listable.request .never hq.name
    rw [hreq] at hlist
    have hnext := h.next hlist (.rendered rfl hi' (by simp [hopen', hlopen])) hi'.increasing hm
      hread
    rw [List.append_nil] at hnext
    refine ⟨(appendAs (l.lastSeqno + 1) q.isDel q.key q.value l).1, ?_⟩
    rw [Wal.Life.append, hreq]
    exact hnext
  · have hopen := isOpen_of_checkAppend hcheck
    rw [hb] at hopen
    cases hopen

theorem Tracks.roll (h : Tracks s l) (hq : s.Fits (.roll .never)) :
    ∃ l', Tracks (s.observe (s.wal.roll .never).1) l' := by
  rcases h.stands with ⟨hb, hi, hc⟩ | ⟨n, rb, hb, -, -, -⟩
  · obtain ⟨pre, f, he, -⟩ := hi.toLive
    have hroll : (s.wal.roll .never).1 = render (WalLog.roll l).1 := by rw [hb, roll_render he]
    rcases ho : l.isOpen with _ | _
    · have hsame : (s.wal.roll .never).1 = s.wal := by rw [hroll, WalLog.roll, ho, hb]; rfl
      exact ⟨l, h.same hsame⟩
    · have hl : (WalLog.roll l).1 = WalLog.rollSegment l := by rw [WalLog.roll, ho]; rfl
      have hd := durableRecords_rollSegment hi.toLive
      refine ⟨WalLog.rollSegment l, h.observe (h.listable.roll .never hq.name)
        (.rendered (hl ▸ hroll) hi.rollSegment (by simp)) hi.rollSegment.increasing
        (.of_records (records_rollSegment hi.toLive) (fun r hr => ?_) [])⟩
      rw [hd]
      exact (durableRecords_le hi.toLive).subset hr
  · have hsame : (s.wal.roll .never).1 = s.wal := by rw [hb]; rfl
    exact ⟨l, h.same hsame⟩

theorem Intact.close {l : Wal Record} (h : Intact l) : Intact l.close := by
  rw [Wal.close]
  split
  · obtain ⟨pre, f, he, hp, -⟩ := h.live
    have hs : l.sync.Ends pre f.sync := he.sync
    have hrec : records l.sync.dir = records l.dir := by
      rw [records_of_ends hs, records_of_ends he]
      rfl
    refine ⟨⟨pre, f.sync, hs, hp, Nat.le_add_right _ _⟩, Nat.zero_lt_of_lt h.lag, ?_, ?_, ?_⟩
    · exact hrec.symm ▸ h.increasing
    · exact hrec.symm ▸ h.bounded
    · intro p hmem hne
      have hmem' : p ∈ pre ++ [(l.activeId, f.sync)] := hs ▸ hmem
      rcases List.mem_append.mp hmem' with hmem' | hmem'
      · exact h.known p (by rw [he]; exact List.mem_append_left _ hmem') hne
      · obtain rfl := List.mem_singleton.mp hmem'
        exact h.known (l.activeId, f) (by rw [he]; simp) hne
  · exact h

theorem Tracks.close (h : Tracks s l) : ∃ l', Tracks (s.observe s.wal.close) l' := by
  rcases ho : s.wal.isOpen with _ | _
  · have hsame : s.wal.close = s.wal := by rw [Wal.close, ho]; rfl
    exact ⟨l, h.same hsame⟩
  rcases h.stands with ⟨hb, hi, hc⟩ | ⟨n, rb, hb, -, -, -⟩
  · obtain ⟨pre, f, he, -⟩ := hi.toLive
    have hopen : l.isOpen = true := by rw [hb] at ho; exact ho
    obtain ⟨hs, hrec⟩ := hi.toLive.close hopen
    have hclosed : l.close = l.sync.closeFile := by rw [Wal.close, if_pos hopen]
    have hd := durableRecords_of_sealed hs
    have hstands : Stands s.wal.close l.close :=
      .rendered (by rw [hb, close_render he]) (Intact.close hi)
        (fun _ => ⟨hs, by rw [hclosed]; rfl⟩)
    refine ⟨l.close, h.observe h.listable.close hstands (Intact.close hi).increasing
      (.of_records hrec (fun r hr => ?_) [])⟩
    rw [hd, hrec]
    exact (durableRecords_le hi.toLive).subset hr
  · rw [hb] at ho
    cases ho

/-! ## Removal -/

theorem removeFirst_render (w n : ℕ) (l : Wal Record) :
    (render l).removeFirst w n = render (l.removeFirst w n) := by
  rw [Wal.removeFirst, Wal.removeFirst, render_dir, OrderedMap.keys_map,
    foldl_removeStep_render]

/-- A log that was never opened knows no maxima, so it removes nothing. -/
theorem removeFirst_of_empty {b : Wal UInt8} (h : b.segmentMaxSeqno = ∅) (w n : ℕ) :
    b.removeFirst w n = b := by
  have hstep : ∀ ids : List ℕ, ids.foldl (Wal.removeStep w) b = b := by
    intro ids
    induction ids with
    | nil => rfl
    | cons id ids ih =>
      have hc : b.covered w id = false := by
        rw [Wal.covered, h]
        simp [OrderedMap.find?_empty]
      rw [List.foldl_cons, Wal.removeStep, hc]
      exact ih
  exact hstep _

theorem sealed_removeFirst (hs : Sealed l.dir) (w n : ℕ) : Sealed (l.removeFirst w n).dir := by
  intro p hp
  rw [entries_removeFirst] at hp
  exact hs p (List.mem_filter.mp hp).1

theorem Tracks.remove (h : Tracks s l) (w n : ℕ) :
    ∃ l', Tracks (s.remove w (s.wal.removeListed w n)) l' := by
  have hlist : (s.wal.removeFirst w n).Listable := h.listable.foldl_removeStep w _
  rw [h.listable.removeListed_eq]
  rcases h.stands with ⟨hb, hi, hc⟩ | ⟨n', rb, hb, -, -, -⟩
  · obtain ⟨dir, m, heq⟩ := foldl_removeStep_eq w l (l.dir.keys.take n)
    obtain ⟨gone, hrec, -⟩ := hi.records_removeFirst w n
    have hstands : Stands (s.wal.removeFirst w n) (l.removeFirst w n) := by
      refine .rendered (by rw [hb, removeFirst_render]) (hi.removeFirst w n) (fun ho => ?_)
      have hopen : l.isOpen = false := by rw [Wal.removeFirst, heq] at ho; exact ho
      refine ⟨sealed_removeFirst (hc hopen).1 w n, ?_⟩
      rw [Wal.removeFirst, heq]
      exact (hc hopen).2
    have hm : Moves l (l.removeFirst w n) [] [w] := by
      refine ⟨?_, fun r hr hw => hi.durable_removeFirst n hr (hw w List.mem_cons_self)⟩
      rw [List.append_nil]
      exact ⟨gone, hrec.symm⟩
    have hnext := h.next hlist hstands (hi.removeFirst w n).increasing hm (by simp)
    rw [List.append_nil] at hnext
    exact ⟨_, hnext⟩
  · have hsame : s.wal.removeFirst w n = s.wal :=
      removeFirst_of_empty (by rw [hb]; rfl) w n
    have hnext := h.next h.listable h.stands h.increasing (Moves.refl l [w]) (by simp)
    rw [List.append_nil] at hnext
    exact ⟨l, by rw [hsame]; exact hnext⟩

end

end LsmKv
