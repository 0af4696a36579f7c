import LsmKv.Lists
import LsmKv.WalRender

/-!
# Recovery in bytes is recovery in records

Opening a directory whose segments read as those of a record log gives the rendering of that
log opened: torn tails are cut, a lost header is written anew, and the maxima, counters and
replayed records are those of the records.
-/

namespace LsmKv
open WalFormat

/-- A segment on disk after a crash or a clean end, against the records it reads as. -/
inductive FileReads (g : DurableFile UInt8) (f : DurableFile Record) : Prop
  | whole {b : Bytes} {rs : List Record} (hg : g = .durable b) (hf : f = .durable rs)
    (h : Reads b rs)
  | short {b : Bytes} (hg : g = .durable b) (hf : f = .durable []) (h : Short b)

def EntryReads (p : ℕ × DurableFile UInt8) (q : ℕ × DurableFile Record) : Prop :=
  p.1 = q.1 ∧ FileReads p.2 q.2

/-- The two directories list the same segments, and only the newest may lack its header. -/
structure DirReads (d : OrderedMap ℕ (DurableFile UInt8))
    (e : OrderedMap ℕ (DurableFile Record)) : Prop where
  files : List.Forall₂ EntryReads d.entries e.entries
  headers : ∀ p ∈ d.entries.dropLast, ¬Short p.2.data

variable {g : DurableFile UInt8} {f : DurableFile Record}

theorem FileReads.replay (h : FileReads g f) : (Wal.scanSegment g.data).2 = f.data := by
  rcases h with ⟨rfl, rfl, h⟩ | ⟨rfl, rfl, h⟩
  · exact h.replay
  · simp [scanSegment_short h]

theorem FileReads.maxSeqno (h : FileReads g f) :
    (Wal.scanSegment g.data).1.maxSeqno = WalLog.maxSeqno f.data := by
  rcases h with ⟨rfl, rfl, h⟩ | ⟨rfl, rfl, h⟩
  · exact h.maxSeqno
  · simp [scanSegment_short h, WalLog.maxSeqno]

theorem FileReads.readable (h : FileReads g f) : ∀ r ∈ f.data, Readable r := by
  rcases h with ⟨rfl, rfl, h⟩ | ⟨rfl, rfl, h⟩
  · exact h.1
  · simp

theorem FileReads.repair_right (h : FileReads g f) : WalLog.repair f = f := by
  have hs : WalLog.survivors f.data = f.data :=
    List.takeWhile_eq_self_iff.mpr (fun r hr => decide_eq_true (h.readable r hr).size)
  have hsync : f.synced = f.data.length := by
    rcases h with ⟨rfl, rfl, -⟩ | ⟨rfl, rfl, -⟩ <;> rfl
  apply DurableFile.ext
  · simp [WalLog.repair, DurableFile.truncate, hs]
  · simp [WalLog.repair, DurableFile.truncate, hs, hsync]

theorem FileReads.repair_left (h : FileReads g f) (hs : ¬Short g.data) :
    Wal.repair g = renderFile f := by
  rcases h with ⟨rfl, rfl, h⟩ | ⟨rfl, rfl, h⟩
  · rw [h.repair, renderFile_durable]
  · exact absurd h hs

/-! ## What the scan of all segments collects -/

variable {d : List (ℕ × DurableFile UInt8)} {e : List (ℕ × DurableFile Record)}

theorem replayed_eq (h : List.Forall₂ EntryReads d e) :
    d.flatMap (fun p => (Wal.scanSegment p.2.data).2) = e.flatMap (fun p => p.2.data) := by
  induction h with
  | nil => rfl
  | cons h _ ih => rw [List.flatMap_cons, List.flatMap_cons, h.2.replay, ih]

theorem segMax_eq (h : List.Forall₂ EntryReads d e) (m : OrderedMap ℕ ℕ) :
    d.foldl (fun m p => m.insert p.1 (Wal.scanSegment p.2.data).1.maxSeqno) m =
      e.foldl (fun m p => m.insert p.1 (WalLog.maxSeqno p.2.data)) m := by
  induction h generalizing m with
  | nil => rfl
  | cons h _ ih => rw [List.foldl_cons, List.foldl_cons, h.1, h.2.maxSeqno, ih]

theorem scanReport_segments (d : List (ℕ × DurableFile UInt8)) (r : WalRecoveryReport) :
    (d.foldl Wal.scanReport r).segments = r.segments + d.length := by
  induction d generalizing r with
  | nil => rfl
  | cons p d ih =>
    have hp : (Wal.scanReport r p).segments = r.segments + 1 := by
      unfold Wal.scanReport
      dsimp only
      split <;> rfl
    rw [List.foldl_cons, ih, hp, List.length_cons]
    omega

theorem scanReport_truncated (d : List (ℕ × DurableFile UInt8)) (r : WalRecoveryReport) :
    (d.foldl Wal.scanReport r).truncated =
      r.truncated + d.countP (fun p => !(Wal.scanSegment p.2.data).1.clean) := by
  induction d generalizing r with
  | nil => rfl
  | cons p d ih =>
    have hp : (Wal.scanReport r p).truncated =
        r.truncated + if (Wal.scanSegment p.2.data).1.clean then 0 else 1 := by
      unfold Wal.scanReport
      dsimp only
      split <;> simp_all
    rw [List.foldl_cons, ih, hp, List.countP_cons]
    split <;> simp_all
    omega

theorem scanReport_lastSeqno (h : List.Forall₂ EntryReads d e) (r : WalRecoveryReport) :
    (d.foldl Wal.scanReport r).lastSeqno =
      max r.lastSeqno (WalLog.maxSeqno (e.flatMap (fun p => p.2.data))) := by
  induction h generalizing r with
  | nil => simp [WalLog.maxSeqno]
  | @cons p q d e h _ ih =>
    have hp : (Wal.scanReport r p).lastSeqno =
        max r.lastSeqno (WalLog.maxSeqno q.2.data) := by
      unfold Wal.scanReport
      dsimp only
      split <;> simp only [h.2.maxSeqno]
    rw [List.foldl_cons, ih, hp, List.flatMap_cons, WalLog.maxSeqno_append]
    omega

/-! ## Opening -/

theorem map_repair_right (h : List.Forall₂ EntryReads d e) :
    e.map (fun q => (q.1, WalLog.repair q.2)) = e := by
  induction h with
  | nil => rfl
  | cons h _ ih => rw [List.map_cons, ih, h.2.repair_right]

/-- Repaired segments below the newest are rendered ones. -/
theorem map_repair_left (h : List.Forall₂ EntryReads d e) (hs : ∀ p ∈ d, ¬Short p.2.data) :
    d.map (fun p => (p.1, Wal.repair p.2)) = e.map (fun q => (q.1, renderFile q.2)) := by
  induction h with
  | nil => rfl
  | cons h _ ih =>
    rw [List.map_cons, List.map_cons, ih (fun p hp => hs p (List.mem_cons_of_mem _ hp)),
      h.1, h.2.repair_left (hs _ List.mem_cons_self)]

/-- The scan of a directory, before a segment is opened for append. -/
theorem scanned_render {b : Wal UInt8} {l : Wal Record} (hd : DirReads b.dir l.dir)
    (hb : b = { render l with dir := b.dir }) :
    b.scanned =
      { render (WalLog.recovered l.dir l) with dir := b.dir.map Wal.repair } := by
  have hseg : b.segmentMaxSeqno = l.segmentMaxSeqno := by rw [hb]; rfl
  have hmax := segMax_eq hd.files l.segmentMaxSeqno
  have hlast : (b.dir.entries.foldl Wal.scanReport {}).lastSeqno =
      WalLog.maxSeqno (WalLog.records l.dir) := by
    rw [scanReport_lastSeqno hd.files, Nat.zero_max]
    rfl
  have hlen : (b.dir.entries.foldl Wal.scanReport {}).segments = l.dir.entries.length := by
    rw [scanReport_segments, hd.files.length_eq, Nat.zero_add]
  simp only [Wal.scanned, Wal.scanAll, if_true, hseg, hmax, hlast, hlen]
  rw [hb]
  rfl

/-- Opening for append after the scan, with nothing on disk. -/
theorem open_render_empty {b : Wal UInt8} {l : Wal Record} (hd : DirReads b.dir l.dir)
    (hb : b = { render l with dir := b.dir }) (hnil : b.dir.entries = []) :
    b.scanned.openActiveSegment .never 1 true =
      (render (WalLog.openActiveSegment 1 (WalLog.recovered l.dir l)), .ok ()) := by
  have hbd : b.dir = ∅ := OrderedMap.ext_entries hnil
  have hld : l.dir = ∅ := OrderedMap.ext_entries (List.forall₂_nil_left_iff.mp (hnil ▸ hd.files))
  rw [scanned_render hd hb, hbd]
  refine openActiveSegment_fresh rfl ?_ ?_
  · show (l.dir.find? 1).getD .new = .new
    rw [hld]
    rfl
  · show _ = (l.dir.insert 1 .new).map renderFile
    rw [hld]
    rfl

/-- The newest segment has its header: it is opened as it is. -/
theorem open_render_whole {b : Wal UInt8} {l : Wal Record} (hd : DirReads b.dir l.dir)
    (hb : b = { render l with dir := b.dir }) (hs : ∀ p ∈ b.dir.entries, ¬Short p.2.data) :
    b.scanned = render (WalLog.recovered l.dir l) := by
  have hdir : b.dir.map Wal.repair = l.dir.map renderFile :=
    OrderedMap.ext_entries (map_repair_left hd.files hs)
  rw [scanned_render hd hb, hdir]
  rfl

/-- The newest segment lost its header: it is emptied and gets a new one. -/
theorem open_render_short {b : Wal UInt8} {l : Wal Record} (hd : DirReads b.dir l.dir)
    (hb : b = { render l with dir := b.dir }) {dpre epre id g}
    (hbe : b.dir.entries = dpre ++ [(id, g)]) (hle : l.dir.entries = epre ++ [(id, .new)])
    (hpre : dpre.map (fun p => (p.1, Wal.repair p.2)) =
      epre.map (fun q => (q.1, renderFile q.2))) (hg : Wal.repair g = .new) :
    b.scanned.openActiveSegment .never id true =
      (render (WalLog.openActiveSegment id (WalLog.recovered l.dir l)), .ok ()) := by
  have hent : (b.dir.map Wal.repair).entries =
      epre.map (fun q => (q.1, renderFile q.2)) ++ [(id, .new)] := by
    rw [OrderedMap.entries_map, hbe, List.map_append, hpre, List.map_cons, List.map_nil, hg]
  have hl : l.dir.insert id .new = l.dir :=
    OrderedMap.ext_entries ((OrderedMap.entries_insert_last _ hle).trans hle.symm)
  rw [scanned_render hd hb]
  refine openActiveSegment_fresh ?_ ?_ ?_
  · rw [OrderedMap.find?_last hent]
    rfl
  · show (l.dir.find? id).getD .new = .new
    rw [OrderedMap.find?_last hle]
    rfl
  · show _ = (l.dir.insert id .new).map renderFile
    apply OrderedMap.ext_entries
    rw [hl, OrderedMap.entries_insert_last _ hent, OrderedMap.entries_map, hle, List.map_append]
    rfl

theorem open_render {b : Wal UInt8} {l : Wal Record} (hd : DirReads b.dir l.dir)
    (hb : b = { render l with dir := b.dir }) :
    b.open .never = (render (WalLog.open l).1,
      .ok (Wal.verify b.dir, (WalLog.open l).2)) := by
  have hrep : l.dir.map WalLog.repair = l.dir :=
    OrderedMap.ext_entries (map_repair_right hd.files)
  have hreplay : (Wal.scanAll true b.dir b.segmentMaxSeqno).replayed = WalLog.records l.dir :=
    replayed_eq hd.files
  have hscan := scanned_render hd hb
  rcases List.eq_nil_or_concat' b.dir.entries with hnil | ⟨dpre, ⟨id, g⟩, hbe⟩
  · have hle : l.dir.entries = [] := List.forall₂_nil_left_iff.mp (hnil ▸ hd.files)
    have hlast : b.scanned.dir.entries.getLast? = none := by simp [hscan, hnil]
    simp only [Wal.open, hlast, open_render_empty hd hb hnil, hreplay, WalLog.open, hrep, hle]
    rfl
  · obtain ⟨epre, ⟨id', f⟩, hle, hpre, rfl, hf⟩ := forall₂_snoc (hbe ▸ hd.files)
    have hheads : ∀ p ∈ dpre, ¬Short p.2.data := fun p hp =>
      hd.headers p (by rw [hbe, List.dropLast_concat]; exact hp)
    have hlast : b.scanned.dir.entries.getLast? = some (id, Wal.repair g) := by
      simp [hscan, hbe]
    have hlog : l.dir.entries.getLast? = some (id, f) := by simp [hle]
    by_cases hs : Short g.data
    · have hnew : f = .new ∧ Wal.repair g = .new := by
        rcases hf with ⟨rfl, rfl, h⟩ | ⟨rfl, rfl, h⟩
        · exact absurd hs h.not_short
        · exact ⟨rfl, h.repair⟩
      obtain ⟨rfl, hg⟩ := hnew
      have hopen := open_render_short hd hb hbe hle (map_repair_left hpre hheads) hg
      have hfresh : decide ((DurableFile.new : DurableFile UInt8).data.length < kHeaderSize) =
          true := rfl
      simp only [Wal.open, hlast, hg, hfresh, hopen, hreplay, WalLog.open, hrep, hlog]
      rfl
    · have hall : ∀ p ∈ b.dir.entries, ¬Short p.2.data := by
        intro p hp
        rw [hbe] at hp
        rcases List.mem_append.mp hp with hp | hp
        · exact hheads p hp
        · obtain rfl := List.mem_singleton.mp hp
          exact hs
      have hfresh : decide ((Wal.repair g).data.length < kHeaderSize) = false := by
        rw [hf.repair_left hs]
        simp [renderFile, WalLog.segmentBytes]
      have hopen := openActiveSegment_reopen_render (l := WalLog.recovered l.dir l)
        (OrderedMap.find?_last hle)
      rw [← open_render_whole hd hb hall] at hopen
      simp only [Wal.open, hlast, hfresh, hopen, hreplay, WalLog.open, hrep, hlog]
      rfl

end LsmKv
