import LsmKv.MemtableBytes
import LsmKv.MemtableRecovery

/-!
# Memtables that share no segment

Over many sessions the log falls into the pieces of the memtables as it does within one, as
long as no segment takes a record behind a cut. Flushing all pieces then leaves the log of the
active memtable alone; only when that is empty may the end of the last piece stay, in the
active segment.
-/

namespace LsmKv
open WalFormat OrderedMap

namespace WalLog

/-- No segment has records on both sides of `w`. -/
def Sided (segs : List (List Record)) (w : ℕ) : Prop :=
  ∀ s ∈ segs, (∀ r ∈ s, r.seqno ≤ w) ∨ ∀ r ∈ s, w < r.seqno

theorem getLast?_segments {l : Wal Record} (h : Intact l) :
    (segments l.dir).getLast? = some l.activeFile.data := by
  obtain ⟨pre, f, he, -⟩ := h.live
  rw [segments_of_ends he, he.activeFile]
  simp

/-- The last record decides on which side the active segment is. -/
theorem Sided.cutAt {l : Wal Record} (hl : Intact l) {w : ℕ} (h : Sided (segments l.dir) w)
    (hlast : l.activeFile.data = [] ∨ ∃ r ∈ (records l.dir).getLast?, w < r.seqno) :
    CutAt (segments l.dir) w := by
  refine ⟨h, fun s hs r hr => ?_⟩
  have hactive := getLast?_segments hl
  obtain rfl := Option.some.inj (hactive.symm.trans hs)
  rcases hlast with hnil | ⟨z, hz, hwz⟩
  · rw [hnil] at hr
    cases hr
  have hne : l.activeFile.data ≠ [] := List.ne_nil_of_mem hr
  obtain ⟨pre, f, he, -⟩ := hl.live
  rw [he.activeFile] at hne hr hactive
  rw [records_of_ends he, List.getLast?_append_of_ne_nil _ hne] at hz
  rcases h f.data (List.mem_of_getLast? hactive) with hle | hlt
  · exact absurd (hle z (List.mem_of_getLast? hz)) (not_le.mpr hwz)
  · exact hlt r hr

/-- A cut may be raised where nothing is in between. -/
theorem CutAt.raise {segs : List (List Record)} {w w' : ℕ} (h : CutAt segs w) (hle : w ≤ w')
    (hgap : ∀ r ∈ segs.flatten, w < r.seqno → w' < r.seqno) : CutAt segs w' := by
  have habove : ∀ s ∈ segs, (∀ r ∈ s, w < r.seqno) → ∀ r ∈ s, w' < r.seqno :=
    fun s hs hlt r hr => hgap r (List.mem_flatten.mpr ⟨s, hs, hr⟩) (hlt r hr)
  refine ⟨fun s hs => (h.sides s hs).imp (fun hw r hr => (hw r hr).trans hle) (habove s hs),
    fun s hs => habove s (List.mem_of_getLast? hs) (h.active s hs)⟩

/-- Under a watermark above everything only the active segment keeps its records. -/
theorem records_removeCovered_of_le {l : Wal Record} (h : Intact l) {w : ℕ}
    (hle : ∀ r ∈ records l.dir, r.seqno ≤ w) :
    records (l.removeSegmentsCovered w).1.dir = l.activeFile.data := by
  obtain ⟨pre, f, he, -⟩ := h.live
  have hstays : stays l w l.dir.keys.length (l.activeId, f) = true := by
    simp [stays, covered_active]
  have hpre : (pre.filter (stays l w l.dir.keys.length)).flatMap (fun p => p.2.data) = [] := by
    refine List.flatMap_eq_nil_iff.mpr (fun p hp => ?_)
    obtain ⟨hp, hs⟩ := List.mem_filter.mp hp
    by_contra hne
    have hmem : p ∈ l.dir.entries := by
      rw [he]
      exact List.mem_append_left _ hp
    have hcov := (h.covered_iff w hmem hne).mpr ⟨(he.lt p hp).ne, maxSeqno_le (fun r hr =>
      hle r (List.mem_flatMap.mpr ⟨p, hmem, hr⟩))⟩
    have hkey : p.1 ∈ l.dir.keys.take l.dir.keys.length := by
      rw [List.take_length]
      exact List.mem_map_of_mem hmem
    rw [stays_eq_false.mpr ⟨hkey, hcov⟩] at hs
    cases hs
  rw [removeSegmentsCovered_eq, records, entries_removeFirst, he, List.filter_append,
    List.filter_singleton, hstays, List.flatMap_append, hpre, he.activeFile]
  simp

theorem isOpen_removeCovered (l : Wal Record) (w : ℕ) :
    (l.removeSegmentsCovered w).1.isOpen = l.isOpen ∧
      (l.removeSegmentsCovered w).1.lastSeqno = l.lastSeqno := by
  obtain ⟨dir, maxima, heq⟩ := foldl_removeStep_eq w l l.dir.keys
  rw [Wal.removeSegmentsCovered, heq]
  exact ⟨rfl, rfl⟩

theorem intact_removeCovered {l : Wal Record} (h : Intact l) (w : ℕ) :
    Intact (l.removeSegmentsCovered w).1 := by
  rw [removeSegmentsCovered_eq]
  exact h.removeFirst _ _

theorem segments_close {l : Wal Record} (h : Live l) (ho : l.isOpen = true) :
    segments l.close.dir = segments l.dir := by
  obtain ⟨pre, f, he, -⟩ := h
  have hc : l.close = l.sync.closeFile := by rw [Wal.close, if_pos ho]
  have hs : l.sync.closeFile.Ends pre f.sync := he.sync
  rw [hc, segments_of_ends hs, segments_of_ends he]
  rfl

end WalLog

/-! ## An open store -/

/-- The memtables are those of the pieces `ps` and of `q`, which are all of the log, and no
segment reaches across the end of a piece. -/
structure Blocks (e : Engine) (ps : List (List Record)) (q : List Record) : Prop where
  log : WalLog.Intact e.wal
  isOpen : e.wal.isOpen = true
  fits : ∀ r ∈ WalLog.records e.wal.dir, WalLog.Fits r
  records : WalLog.records e.wal.dir = ps.flatten ++ q
  immutables : e.immutables = (ps.map e.config.memtable).reverse
  active : e.active = e.config.memtable q
  fills : ∀ p ∈ ps, e.config.Fills p
  growing : e.config.Growing q
  room : ps.length ≤ e.config.maxImmutableTables
  sides : ∀ p ∈ ps, WalLog.Sided (WalLog.segments e.wal.dir) (WalLog.maxSeqno p)

section
variable {e : Engine} {ps : List (List Record)} {q : List Record}

theorem Blocks.length_immutables (h : Blocks e ps q) : e.immutables.length = ps.length := by
  rw [h.immutables]
  simp

theorem Blocks.maxSeqno_le (h : Blocks e ps q) {p : List Record} (hp : p ∈ ps) :
    WalLog.maxSeqno p ≤ e.wal.lastSeqno := by
  refine WalLog.maxSeqno_le (fun r hr => h.log.bounded r ?_)
  rw [h.records]
  exact List.mem_append_left _ (List.mem_flatten.mpr ⟨p, hp, hr⟩)

theorem Blocks.lt_of_mem (h : Blocks e ps q) {r : Record} (hr : r ∈ q) {p : List Record}
    (hp : p ∈ ps) : WalLog.maxSeqno p < r.seqno := by
  have hinc := h.log.increasing
  rw [h.records] at hinc
  obtain ⟨s, a, rfl⟩ : ∃ s a, p = s ++ [a] :=
    ⟨_, _, (List.dropLast_append_getLast (h.fills p hp).nonempty).symm⟩
  obtain ⟨hps, -, hlt⟩ := List.pairwise_append.mp hinc
  rw [maxSeqno_of_pairwise ((List.pairwise_flatten.mp hps).1 _ hp)]
  exact hlt a (List.mem_flatten.mpr ⟨_, hp, by simp⟩) r hr

/-- A record that goes into the active memtable goes behind every cut. -/
theorem Blocks.cutAt (h : Blocks e ps q)
    (hlast : e.wal.activeFile.data = [] ∨ q ≠ []) {p : List Record} (hp : p ∈ ps) :
    WalLog.CutAt (WalLog.segments e.wal.dir) (WalLog.maxSeqno p) := by
  refine (h.sides p hp).cutAt h.log (hlast.imp_right (fun hq => ?_))
  refine ⟨q.getLast hq, ?_, h.lt_of_mem (List.getLast_mem hq) hp⟩
  rw [h.records, List.getLast?_append_of_ne_nil _ hq]
  exact List.getLast?_eq_some_getLast hq

theorem Blocks.write (h : Blocks e ps q) {r : Record} (hfits : WalLog.Fits r) {e' : Engine}
    (hw : Writes e r e') (hfull : q ≠ [] → ¬e.config.Full q)
    (hlast : e.wal.activeFile.data = [] ∨ q ≠ []) :
    Blocks e' ps (q ++ [r]) ∨ Blocks e' (ps ++ [q ++ [r]]) [] := by
  obtain ⟨l, happ, hcases⟩ := hw.applied
  have hgrowing := h.growing.snoc hfull r
  have hactive : e.active.applyRecord r = e.config.memtable (q ++ [r]) := by
    rw [h.active, e.config.memtable_snoc]
  have hrecords : WalLog.records l.dir = ps.flatten ++ (q ++ [r]) := by
    rw [happ.records, h.records, List.append_assoc]
  have hfitsAll : ∀ a ∈ WalLog.records l.dir, WalLog.Fits a := happ.forall_records h.fits hfits
  have hcuts : ∀ p ∈ ps, WalLog.CutAt (WalLog.segments l.dir) (WalLog.maxSeqno p) := by
    intro p hp
    have hlt : e.wal.lastSeqno < r.seqno := hw.fresh ▸ Nat.lt_succ_self _
    exact happ.cutAt (h.cutAt hlast hp) ((h.maxSeqno_le hp).trans_lt hlt)
  rcases hcases with ⟨-, rfl⟩ | ⟨hdue, l', hroll, rfl⟩
  · exact .inl ⟨happ.intact, happ.isOpen, hfitsAll, hrecords, h.immutables, hactive, h.fills,
      hgrowing, h.room, fun p hp => (hcuts p hp).sides⟩
  · rw [hactive, h.length_immutables] at hdue
    refine .inr ⟨hroll.intact, hroll.isOpen, ?_, ?_, ?_, rfl, ?_, Config.growing_nil, ?_, ?_⟩
    · exact hroll.records.symm ▸ hfitsAll
    · show WalLog.records l'.dir = _
      rw [hroll.records, hrecords]
      simp
    · show e.active.applyRecord r :: e.immutables = _
      rw [hactive, h.immutables]
      simp
    · refine List.forall_mem_append.mpr ⟨h.fills, List.forall_mem_singleton.mpr ?_⟩
      exact ⟨by simp, hgrowing, hdue.1⟩
    · rw [List.length_append]
      exact hdue.2
    · intro p hp
      rcases List.mem_append.mp hp with hp | hp
      · exact (hroll.cutAt (hcuts p hp)).sides
      · obtain rfl := List.mem_singleton.mp hp
        exact (happ.cutAt_roll hroll (by simp)).sides

theorem Blocks.of_sameMemory (h : Blocks e ps q) {e' : Engine} (hs : SameMemory e e') :
    Blocks e' ps q where
  log := hs.wal ▸ h.log
  isOpen := hs.wal ▸ h.isOpen
  fits := hs.wal ▸ h.fits
  records := hs.wal ▸ h.records
  immutables := by rw [hs.immutables, hs.config, h.immutables]
  active := by rw [hs.active, hs.config, h.active]
  fills := hs.config ▸ h.fills
  growing := hs.config ▸ h.growing
  room := hs.config ▸ h.room
  sides := hs.wal ▸ h.sides

/-- The oldest immutable is that of the first piece. -/
theorem Blocks.exists_oldest (h : Blocks e ps q) {target : Memtable}
    (ht : e.immutables.getLast? = some target) :
    ∃ p ps', ps = p :: ps' ∧ target = e.config.memtable p := by
  rw [h.immutables] at ht
  rcases ps with _ | ⟨p, ps'⟩
  · cases ht
  · exact ⟨p, ps', rfl, by simpa using ht.symm⟩

theorem Blocks.maxSeqno_of_oldest {p : List Record} (h : Blocks e (p :: ps) q) {T : LiveTable}
    (hT : T.rows = (e.config.memtable p).map) : T.info.maxSeqno = WalLog.maxSeqno p := by
  have hinc := h.log.increasing
  rw [h.records, List.flatten_cons, List.append_assoc] at hinc
  exact maxSeqno_of_memtable (h.fills p List.mem_cons_self).nonempty
    (List.pairwise_append.mp hinc).1 hT

theorem Blocks.lt_of_rest {p : List Record} (h : Blocks e (p :: ps) q) {r : Record}
    (hr : r ∈ ps.flatten ++ q) : WalLog.maxSeqno p < r.seqno := by
  have hinc := h.log.increasing
  rw [h.records, List.flatten_cons, List.append_assoc] at hinc
  obtain ⟨s, a, rfl⟩ : ∃ s a, p = s ++ [a] :=
    ⟨_, _, (List.dropLast_append_getLast (h.fills p List.mem_cons_self).nonempty).symm⟩
  obtain ⟨hp, -, hlt⟩ := List.pairwise_append.mp hinc
  rw [maxSeqno_of_pairwise hp]
  exact hlt a (by simp) r hr

/-- A watermark between the first piece and the rest takes out the first piece. -/
theorem Blocks.removeFirst {p : List Record} (h : Blocks e (p :: ps) q) {w : ℕ}
    (hle : WalLog.maxSeqno p ≤ w) (hlt : ∀ r ∈ ps.flatten ++ q, w < r.seqno)
    (hlast : e.wal.activeFile.data = [] ∨ ps.flatten ++ q ≠ []) :
    Blocks { e with
      wal := (e.wal.removeSegmentsCovered w).1
      immutables := e.immutables.dropLast } ps q := by
  have hcut : WalLog.CutAt (WalLog.segments e.wal.dir) w := by
    have hp : p ∈ p :: ps := List.mem_cons_self
    refine ((h.sides p hp).cutAt h.log (hlast.imp_right (fun hne => ?_))).raise hle ?_
    · refine ⟨(ps.flatten ++ q).getLast hne, ?_, h.lt_of_rest (List.getLast_mem hne)⟩
      rw [h.records, List.flatten_cons, List.append_assoc, List.getLast?_append_of_ne_nil _ hne]
      exact List.getLast?_eq_some_getLast hne
    · intro r hr hpr
      rw [WalLog.flatten_segments, h.records, List.flatten_cons, List.append_assoc] at hr
      rcases List.mem_append.mp hr with hr | hr
      · exact absurd hpr (not_lt.mpr (WalLog.le_maxSeqno hr))
      · exact hlt r hr
  have hrecords := WalLog.records_removeCovered h.log hcut
  have hkept : WalLog.records (e.wal.removeSegmentsCovered w).1.dir = ps.flatten ++ q := by
    rw [hrecords, h.records, List.flatten_cons, List.append_assoc, List.filter_append,
      List.filter_eq_nil_iff.mpr, List.filter_eq_self.mpr, List.nil_append]
    · exact fun r hr => decide_eq_true (hlt r hr)
    · exact fun r hr => by simpa using (WalLog.le_maxSeqno hr).trans hle
  refine ⟨WalLog.intact_removeCovered h.log w, ?_, ?_, hkept, ?_, h.active,
    fun p' hp' => h.fills p' (List.mem_cons_of_mem _ hp'), h.growing, ?_, fun p' hp' s hs => ?_⟩
  · exact (WalLog.isOpen_removeCovered e.wal w).1.trans h.isOpen
  · intro r hr
    refine h.fits r ?_
    rw [h.records, List.flatten_cons, List.append_assoc]
    exact List.mem_append_right _ (hkept ▸ hr)
  · show e.immutables.dropLast = _
    rw [h.immutables]
    simp
  · have := h.room
    rw [List.length_cons] at this
    show ps.length ≤ e.config.maxImmutableTables
    omega
  · exact h.sides p' (List.mem_cons_of_mem _ hp') s
      ((WalLog.segments_removeCovered h.log w).1.subset hs)

end

/-! ## What is left of a flushed piece -/

/-- Nothing is in memory, and the log is the active segment with the end of a flushed piece. -/
structure Spent (e : Engine) (done : List Record) : Prop where
  log : WalLog.Intact e.wal
  isOpen : e.wal.isOpen = true
  fits : ∀ r ∈ done, WalLog.Fits r
  records : WalLog.records e.wal.dir = done
  segment : e.wal.activeFile.data = done
  immutables : e.immutables = []
  active : e.active = e.config.memtable []
  growing : e.config.Growing done
  nonempty : done ≠ []

theorem Spent.of_sameMemory {e e' : Engine} {done : List Record} (h : Spent e done)
    (hs : SameMemory e e') : Spent e' done where
  log := hs.wal ▸ h.log
  isOpen := hs.wal ▸ h.isOpen
  fits := h.fits
  records := hs.wal ▸ h.records
  segment := hs.wal ▸ h.segment
  immutables := hs.immutables.trans h.immutables
  active := by rw [hs.active, hs.config, h.active]
  growing := hs.config ▸ h.growing
  nonempty := h.nonempty

theorem Blocks.spent {e : Engine} {p : List Record} (h : Blocks e [p] []) {w : ℕ}
    (hle : WalLog.maxSeqno p ≤ w) (hne : e.wal.activeFile.data ≠ []) :
    Spent { e with
      wal := (e.wal.removeSegmentsCovered w).1
      immutables := e.immutables.dropLast } e.wal.activeFile.data := by
  have hp : WalLog.records e.wal.dir = p := by
    rw [h.records]
    simp
  obtain ⟨pre, f, he, -⟩ := h.log.live
  have hsuffix : p = pre.flatMap (fun x => x.2.data) ++ e.wal.activeFile.data := by
    rw [← hp, WalLog.records_of_ends he, he.activeFile]
  have hintact := WalLog.intact_removeCovered h.log w
  have hlast := (WalLog.segments_removeCovered h.log w).2
  rw [WalLog.getLast?_segments hintact, WalLog.getLast?_segments h.log] at hlast
  refine ⟨hintact, (WalLog.isOpen_removeCovered e.wal w).1.trans h.isOpen, fun r hr => ?_,
    WalLog.records_removeCovered_of_le h.log (fun r hr => ?_), Option.some.inj hlast, ?_,
    h.active, ?_, hne⟩
  · refine h.fits r ?_
    rw [hp, hsuffix]
    exact List.mem_append_right _ hr
  · exact (WalLog.le_maxSeqno (hp ▸ hr)).trans hle
  · show e.immutables.dropLast = []
    rw [h.immutables]
    rfl
  · have hgrowing := (h.fills p List.mem_cons_self).growing
    rw [hsuffix] at hgrowing
    exact hgrowing.of_suffix

/-! ## A directory -/

/-- The log of a directory in pieces. -/
structure Disk.Blocks (c : Config) (d : Disk) (ps : List (List Record)) (q : List Record) :
    Prop where
  log : WalLog.Sealed d.wal
  fits : ∀ r ∈ WalLog.records d.wal, WalLog.Fits r
  increasing : (WalLog.records d.wal).Pairwise (fun a b => a.seqno < b.seqno)
  records : WalLog.records d.wal = ps.flatten ++ q
  fills : ∀ p ∈ ps, c.Fills p
  growing : c.Growing q
  room : ps.length ≤ c.maxImmutableTables
  sides : ∀ p ∈ ps, WalLog.Sided (WalLog.segments d.wal) (WalLog.maxSeqno p)

theorem Blocks.close {e : Engine} {ps : List (List Record)} {q : List Record}
    (h : Blocks e ps q) (hc : e.closed = false) : e.close.disk.Blocks e.config ps q := by
  obtain ⟨hsealed, hrecords⟩ := h.log.toLive.close h.isOpen
  have hwal : e.close.disk.wal = e.wal.close.dir := by
    rw [Engine.close, hc]
    rfl
  refine ⟨hwal ▸ hsealed, ?_, ?_, ?_, h.fills, h.growing, h.room, ?_⟩ <;> rw [hwal]
  · exact hrecords.symm ▸ h.fits
  · exact hrecords.symm ▸ h.log.increasing
  · exact hrecords.trans h.records
  · rw [WalLog.segments_close h.log.toLive h.isOpen]
    exact h.sides

theorem Spent.close {e : Engine} {done : List Record} (h : Spent e done)
    (hc : e.closed = false) : e.close.disk.Blocks e.config [] done := by
  obtain ⟨hsealed, hrecords⟩ := h.log.toLive.close h.isOpen
  have hwal : e.close.disk.wal = e.wal.close.dir := by
    rw [Engine.close, hc]
    rfl
  refine ⟨hwal ▸ hsealed, ?_, ?_, ?_, by simp, h.growing, Nat.zero_le _, by simp⟩ <;> rw [hwal]
  · exact fun r hr => h.fits r (h.records ▸ hrecords ▸ hr)
  · exact hrecords.symm ▸ h.log.increasing
  · exact hrecords.trans h.records

/-- Replay cuts where the pieces end, and at the end of the log if the rest fills a memtable
for which there is room. -/
theorem Disk.Blocks.open {c : Config} {d : Disk} {ps : List (List Record)} {q : List Record}
    (h : d.Blocks c ps q) :
    ((q ≠ [] → c.Full q → c.maxImmutableTables ≤ ps.length) ∧
      LsmKv.Blocks (Host.opened c d) ps q) ∨
    ((q ≠ [] ∧ c.Full q ∧ ps.length < c.maxImmutableTables) ∧
      LsmKv.Blocks (Host.opened c d) (ps ++ [q]) []) := by
  have hrec : Recovers c d (Host.opened c d) := recovers_recover c h.log h.fits h.increasing
  have hconfig : (Host.opened c d).config = c := by
    rw [Host.opened, recover_eq]
    rfl
  have hmemtables := hrec.memtables
  rw [Config.replayed, h.records, List.foldl_append,
    foldl_take_pieces h.fills (by simpa using h.room), List.append_nil] at hmemtables
  have hfits : ∀ r ∈ WalLog.records (Host.opened c d).wal.dir, WalLog.Fits r :=
    hrec.records.symm ▸ h.fits
  have hsided : ∀ w, WalLog.Sided (WalLog.segments d.wal) w →
      WalLog.Sided (WalLog.segments (Host.opened c d).wal.dir) w := by
    intro w hw
    rw [hrec.segments]
    split
    · intro s hs
      obtain rfl := List.mem_singleton.mp hs
      exact .inl (by simp)
    · exact hw
  by_cases hdue : q ≠ [] ∧ c.Full q ∧ ps.length < c.maxImmutableTables
  · have hfills : c.Fills q := ⟨hdue.1, h.growing, hdue.2.1⟩
    rw [foldl_take_fills hfills (by simpa using hdue.2.2)] at hmemtables
    refine .inr ⟨hdue, hrec.log, hrec.isOpen, hfits, ?_, ?_, ?_, ?_, Config.growing_nil, ?_,
      fun p hp => ?_⟩
    · rw [hrec.records, h.records]
      simp
    · rw [hconfig]
      exact (congrArg Memtables.immutables hmemtables).trans (by simp)
    · rw [hconfig]
      exact congrArg Memtables.active hmemtables
    · rw [hconfig]
      intro p hp
      rcases List.mem_append.mp hp with hp | hp
      · exact h.fills p hp
      · exact List.mem_singleton.mp hp ▸ hfills
    · rw [hconfig, List.length_append]
      exact hdue.2.2
    · rcases List.mem_append.mp hp with hp | hp
      · exact hsided _ (h.sides p hp)
      · obtain rfl := List.mem_singleton.mp hp
        refine hsided _ (fun s hs => .inl (fun r hr => ?_))
        have hmem : r ∈ WalLog.records d.wal :=
          WalLog.flatten_segments d.wal ▸ List.mem_flatten.mpr ⟨s, hs, hr⟩
        have hinc := h.increasing
        rw [h.records] at hmem hinc
        rcases List.mem_append.mp hmem with hmem | hmem
        · obtain ⟨a, ha⟩ := List.exists_mem_of_ne_nil p hdue.1
          exact ((List.pairwise_append.mp hinc).2.2 r hmem a ha).le.trans (WalLog.le_maxSeqno ha)
        · exact WalLog.le_maxSeqno hmem
  · have hroom : q ≠ [] → c.Full q → c.maxImmutableTables ≤ ps.length :=
      fun hq hfull => not_lt.mp (fun hlt => hdue ⟨hq, hfull, hlt⟩)
    rw [foldl_take_growing h.growing _ (fun hfull hq => by simpa using hroom hq hfull)]
      at hmemtables
    refine .inl ⟨hroom, hrec.log, hrec.isOpen, hfits, hrec.records.trans h.records, ?_, ?_, ?_, ?_,
      ?_, fun p hp => hsided _ (h.sides p hp)⟩ <;> rw [hconfig]
    · exact congrArg Memtables.immutables hmemtables
    · exact congrArg Memtables.active hmemtables
    · exact h.fills
    · exact h.growing
    · exact h.room

end LsmKv
