import LsmKv.EngineWrite
import LsmKv.Outputs

/-!
# Rebuilding the memtables

While a store stays open, its log falls into the pieces its memtables were built from, and the
segments end where the pieces do. Replaying the log then gives the same memtables, as long as
no flush makes room for a rotation that was put off.
-/

namespace LsmKv
open Sst (TableMeta)
open WalFormat OrderedMap

/-! ## Cleaning up the log -/

namespace WalLog

/-- No segment has records on both sides of `w`, and the active one has none at or below it. -/
structure CutAt (segs : List (List Record)) (w : ℕ) : Prop where
  sides : ∀ s ∈ segs, (∀ r ∈ s, r.seqno ≤ w) ∨ ∀ r ∈ s, w < r.seqno
  active : ∀ s ∈ segs.getLast?, ∀ r ∈ s, w < r.seqno

theorem Appends.cutAt {l l' : Wal Record} {r : Record} (h : Appends l l' r) {w : ℕ}
    (hc : CutAt (WalLog.segments l.dir) w) (hr : w < r.seqno) :
    CutAt (WalLog.segments l'.dir) w := by
  rcases h.segments with hnew | ⟨init, last, hold, hnew⟩
  · rw [hnew]
    refine ⟨fun s hs => ?_, by simpa using hr⟩
    rcases List.mem_append.mp hs with hs | hs
    · exact hc.sides s hs
    · obtain rfl := List.mem_singleton.mp hs
      exact .inr (by simpa using hr)
  · rw [hold] at hc
    rw [hnew]
    have hlast : ∀ a ∈ last ++ [r], w < a.seqno := by
      intro a ha
      rcases List.mem_append.mp ha with ha | ha
      · exact hc.active last (by simp) a ha
      · obtain rfl := List.mem_singleton.mp ha
        exact hr
    refine ⟨fun s hs => ?_, by simpa using hlast⟩
    rcases List.mem_append.mp hs with hs | hs
    · exact hc.sides s (List.mem_append_left _ hs)
    · obtain rfl := List.mem_singleton.mp hs
      exact .inr hlast

theorem Rolls.cutAt {l l' : Wal Record} (h : Rolls l l') {w : ℕ}
    (hc : CutAt (WalLog.segments l.dir) w) : CutAt (WalLog.segments l'.dir) w := by
  rw [h.segments]
  refine ⟨fun s hs => ?_, by simp⟩
  rcases List.mem_append.mp hs with hs | hs
  · exact hc.sides s hs
  · obtain rfl := List.mem_singleton.mp hs
    exact .inr (by simp)

/-- A roll cuts behind everything there is. -/
theorem Rolls.cutAt_end {l l' : Wal Record} (h : Rolls l l') {w : ℕ}
    (hw : ∀ r ∈ WalLog.records l.dir, r.seqno ≤ w) : CutAt (WalLog.segments l'.dir) w := by
  rw [← flatten_segments] at hw
  rw [h.segments]
  refine ⟨fun s hs => ?_, by simp⟩
  rcases List.mem_append.mp hs with hs | hs
  · exact .inl (fun r hr => hw r (List.mem_flatten.mpr ⟨s, hs, hr⟩))
  · obtain rfl := List.mem_singleton.mp hs
    exact .inl (by simp)

theorem Appends.cutAt_roll {l l' l'' : Wal Record} {r : Record} (h : Appends l l' r)
    (hroll : Rolls l' l'') {p : List Record} (hr : r ∈ p) :
    CutAt (WalLog.segments l''.dir) (maxSeqno p) := by
  refine hroll.cutAt_end fun a ha => ?_
  have hle := h.intact.bounded a ha
  rw [h.lastSeqno] at hle
  exact hle.trans (le_maxSeqno hr)

/-- Segments only go, and never the active one. -/
theorem segments_removeCovered {l : Wal Record} (h : Intact l) (w : ℕ) :
    (segments (l.removeSegmentsCovered w).1.dir).Sublist (segments l.dir) ∧
      (segments (l.removeSegmentsCovered w).1.dir).getLast? = (segments l.dir).getLast? := by
  rw [removeSegmentsCovered_eq, segments, segments, entries_removeFirst]
  refine ⟨List.filter_sublist.map _, ?_⟩
  obtain ⟨pre, f, he, -⟩ := h.live
  have hstays : stays l w l.dir.keys.length (l.activeId, f) = true := by
    simp [stays, covered_active]
  rw [he, List.filter_append, List.filter_singleton, hstays]
  simp

theorem CutAt.removeCovered {l : Wal Record} (h : Intact l) {w w' : ℕ}
    (hc : CutAt (segments l.dir) w') :
    CutAt (segments (l.removeSegmentsCovered w).1.dir) w' := by
  obtain ⟨hsub, hlast⟩ := segments_removeCovered h w
  exact ⟨fun s hs => hc.sides s (hsub.subset hs), hlast ▸ hc.active⟩

/-- A segment that stays at a cut is above it. -/
theorem CutAt.above {l : Wal Record} (h : Intact l) {w : ℕ} (hc : CutAt (segments l.dir) w)
    {p : ℕ × DurableFile Record} (hp : p ∈ l.dir.entries)
    (hs : stays l w l.dir.keys.length p = true) : ∀ r ∈ p.2.data, w < r.seqno := by
  rcases hc.sides p.2.data (List.mem_map_of_mem hp) with hle | hlt
  · intro r hr
    have hne := List.ne_nil_of_mem hr
    have hactive : p.1 = l.activeId := by
      by_contra hother
      have hcov := (h.covered_iff w hp hne).mpr ⟨hother, maxSeqno_le hle⟩
      have hkey : p.1 ∈ l.dir.keys.take l.dir.keys.length := by
        rw [List.take_length]
        exact List.mem_map_of_mem hp
      rw [stays_eq_false.mpr ⟨hkey, hcov⟩] at hs
      cases hs
    obtain ⟨pre, f, he, -⟩ := h.live
    rw [he] at hp
    rcases List.mem_append.mp hp with hp | hp
    · exact absurd hactive (he.lt p hp).ne
    · obtain rfl := List.mem_singleton.mp hp
      refine hc.active f.data ?_ r hr
      rw [segments_of_ends he]
      simp
  · exact hlt

/-- Where the segments are cut at the watermark, exactly what is above it stays. -/
theorem records_removeCovered {l : Wal Record} (h : Intact l) {w : ℕ}
    (hc : CutAt (segments l.dir) w) :
    records (l.removeSegmentsCovered w).1.dir =
      (records l.dir).filter (fun r => w < r.seqno) := by
  have hdrop : ∀ ps : List (ℕ × DurableFile Record), (∀ p ∈ ps, p ∈ l.dir.entries) →
      (ps.filter (stays l w l.dir.keys.length)).flatMap (fun p => p.2.data) =
        ps.flatMap (fun p => p.2.data.filter (fun r => w < r.seqno)) := by
    intro ps hps
    induction ps with
    | nil => rfl
    | cons p ps ih =>
      obtain ⟨hp, hps⟩ := List.forall_mem_cons.mp hps
      rcases hs : stays l w l.dir.keys.length p with _ | _
      · have hnil : p.2.data.filter (fun r => decide (w < r.seqno)) = [] :=
          List.filter_eq_nil_iff.mpr (fun r hr => by
            simpa using h.le_of_dropped hp hs r hr)
        rw [List.filter_cons_of_neg (by simp [hs]), ih hps, List.flatMap_cons, hnil,
          List.nil_append]
      · have hself : p.2.data.filter (fun r => decide (w < r.seqno)) = p.2.data :=
          List.filter_eq_self.mpr (fun r hr => by simpa using hc.above h hp hs r hr)
        rw [List.filter_cons_of_pos hs, List.flatMap_cons, ih hps, List.flatMap_cons, hself]
  rw [removeSegmentsCovered_eq, records, entries_removeFirst, records, List.filter_flatMap]
  exact hdrop _ (fun p hp => hp)

end WalLog

/-! ## The pieces of an open store -/

theorem maxSeqno_of_pairwise {rs : List Record} {r : Record}
    (h : (rs ++ [r]).Pairwise (fun a b => a.seqno < b.seqno)) :
    WalLog.maxSeqno (rs ++ [r]) = r.seqno :=
  WalLog.maxSeqno_snoc (fun a ha => ((List.pairwise_append.mp h).2.2 a ha r (by simp)).le)

/-- A table of these records reports the last one's number. -/
theorem maxSeqno_of_memtable {overhead : ℕ} {rs : List Record} (hne : rs ≠ [])
    (h : rs.Pairwise (fun a b => a.seqno < b.seqno)) {T : LiveTable}
    (hT : T.rows = (Memtable.ofRecords overhead rs).map) :
    T.info.maxSeqno = WalLog.maxSeqno rs := by
  obtain ⟨s, r, rfl⟩ : ∃ s r, rs = s ++ [r] := ⟨_, _, (List.dropLast_append_getLast hne).symm⟩
  rw [maxSeqno_of_pairwise h]
  have hlast := Memtable.find?_ofRecords_last overhead s r
  rw [← hT] at hlast
  refine le_antisymm ?_ (LiveTable.seqno_le hlast)
  obtain ⟨k, e, hk, he⟩ := T.exists_top
  rw [hT] at hk
  obtain ⟨a, ha, -, rfl⟩ := Memtable.exists_of_find?_ofRecords hk
  rw [← he, Record.row_seqno, ← maxSeqno_of_pairwise h]
  exact WalLog.le_maxSeqno ha

/-- The log holds the pieces of the immutables, oldest first, and then that of the active
memtable; nothing of it is flushed. -/
structure Pieces (e : Engine) (ps : List (List Record)) (q : List Record) : Prop where
  log : WalLog.Intact e.wal
  isOpen : e.wal.isOpen = true
  fits : ∀ r ∈ WalLog.records e.wal.dir, WalLog.Fits r
  records : WalLog.records e.wal.dir = ps.flatten ++ q
  immutables : e.immutables = (ps.map e.config.memtable).reverse
  active : e.active = e.config.memtable q
  fills : ∀ p ∈ ps, e.config.Fills p
  growing : e.config.Growing q
  room : ps.length ≤ e.config.maxImmutableTables
  deferred : q ≠ [] → e.config.Full q → e.config.maxImmutableTables ≤ ps.length
  cuts : ∀ p ∈ ps, WalLog.CutAt (WalLog.segments e.wal.dir) (WalLog.maxSeqno p)
  flushed : ∀ r ∈ WalLog.records e.wal.dir, e.manifest.maxSeqno < r.seqno
  counter : e.manifest.maxSeqno ≤ e.wal.lastSeqno

section
variable {e : Engine} {ps : List (List Record)} {q : List Record}

theorem Pieces.length_immutables (h : Pieces e ps q) : e.immutables.length = ps.length := by
  rw [h.immutables]
  simp

/-- A write that is let in finds the active memtable not full, or empty. -/
theorem Pieces.not_full (h : Pieces e ps q) (hcap : e.ensureWriteCapacity = .ok ()) :
    q ≠ [] → ¬e.config.Full q := by
  intro hq hfull
  have hroom := h.deferred hq hfull
  have hbytes : e.config.memtableMaxBytes ≤ e.active.bytes := h.active ▸ hfull
  rw [Engine.ensureWriteCapacity] at hcap
  split at hcap
  · cases hcap
  split at hcap
  · rw [h.length_immutables] at *
    omega
  · cases hcap

theorem Pieces.maxSeqno_le (h : Pieces e ps q) {p : List Record} (hp : p ∈ ps) :
    WalLog.maxSeqno p ≤ e.wal.lastSeqno := by
  refine WalLog.maxSeqno_le (fun r hr => h.log.bounded r ?_)
  rw [h.records]
  exact List.mem_append_left _ (List.mem_flatten.mpr ⟨p, hp, hr⟩)

theorem Pieces.write (h : Pieces e ps q) {r : Record} (hfits : WalLog.Fits r) {e' : Engine}
    (hw : Writes e r e') : ∃ ps' q', Pieces e' ps' q' := by
  obtain ⟨l, happ, hcases⟩ := hw.applied
  have hgrowing := h.growing.snoc (h.not_full hw.capacity) r
  have hactive : e.active.applyRecord r = e.config.memtable (q ++ [r]) := by
    rw [h.active, e.config.memtable_snoc]
  have hrecords : WalLog.records l.dir = ps.flatten ++ (q ++ [r]) := by
    rw [happ.records, h.records, List.append_assoc]
  have hfitsAll : ∀ a ∈ WalLog.records l.dir, WalLog.Fits a := happ.forall_records h.fits hfits
  have hlt : e.wal.lastSeqno < r.seqno := hw.fresh ▸ Nat.lt_succ_self _
  have hflushed : ∀ a ∈ WalLog.records l.dir, e.manifest.maxSeqno < a.seqno :=
    happ.forall_records h.flushed (h.counter.trans_lt hlt)
  have hcuts : ∀ p ∈ ps, WalLog.CutAt (WalLog.segments l.dir) (WalLog.maxSeqno p) :=
    fun p hp => happ.cutAt (h.cuts p hp) ((h.maxSeqno_le hp).trans_lt hlt)
  rcases hcases with ⟨hstay, rfl⟩ | ⟨hdue, l', hroll, rfl⟩
  · refine ⟨ps, q ++ [r], happ.intact, happ.isOpen, hfitsAll, hrecords, h.immutables, hactive,
      h.fills, hgrowing, h.room, fun _ hfull => ?_, hcuts, hflushed, ?_⟩
    · rw [hactive, h.length_immutables] at hstay
      by_contra hroom
      exact hstay ⟨hfull, not_le.mp hroom⟩
    · exact (h.counter.trans hlt.le).trans happ.lastSeqno.ge
  · rw [hactive, h.length_immutables] at hdue
    refine ⟨ps ++ [q ++ [r]], [], hroll.intact, hroll.isOpen, ?_, ?_, ?_, rfl, ?_,
      Config.growing_nil, ?_, fun hne => absurd rfl hne, ?_, ?_, ?_⟩
    · exact hroll.records.symm ▸ hfitsAll
    · show WalLog.records l'.dir = _
      rw [hroll.records, hrecords]
      simp
    · show e.active.applyRecord r :: e.immutables = _
      rw [hactive, h.immutables]
      simp
    · refine List.forall_mem_append.mpr ⟨h.fills, List.forall_mem_singleton.mpr ?_⟩
      exact ⟨by simp, hgrowing, hdue.1⟩
    · rw [List.length_append]
      exact hdue.2
    · intro p hp
      rcases List.mem_append.mp hp with hp | hp
      · exact hroll.cutAt (hcuts p hp)
      · obtain rfl := List.mem_singleton.mp hp
        exact happ.cutAt_roll hroll (by simp)
    · exact hroll.records.symm ▸ hflushed
    · exact ((h.counter.trans hlt.le).trans happ.lastSeqno.ge).trans hroll.lastSeqno.ge

theorem filter_above {ps : List (List Record)} {p q : List Record}
    (hinc : (p ++ (ps.flatten ++ q)).Pairwise (fun a b => a.seqno < b.seqno)) (hne : p ≠ []) :
    (p ++ (ps.flatten ++ q)).filter (fun r => WalLog.maxSeqno p < r.seqno) =
      ps.flatten ++ q := by
  rw [List.filter_append, List.filter_eq_nil_iff.mpr, List.filter_eq_self.mpr, List.nil_append]
  · intro r hr
    obtain ⟨s, a, rfl⟩ : ∃ s a, p = s ++ [a] := ⟨_, _, (List.dropLast_append_getLast hne).symm⟩
    obtain ⟨hp, -, hlt⟩ := List.pairwise_append.mp hinc
    rw [maxSeqno_of_pairwise hp]
    simpa using hlt a (by simp) r hr
  · intro r hr
    simpa using WalLog.le_maxSeqno hr

theorem addTable_maxSeqno (m : Manifest) (info : TableMeta) :
    (m.addTable info).maxSeqno = max info.maxSeqno m.maxSeqno := by
  rw [Manifest.maxSeqno, Manifest.addTable, List.foldl_cons, foldl_max_seqno, Nat.zero_max]
  rfl

/-- A flush takes the oldest piece away, out of the log and out of the immutables. -/
theorem Pieces.flush (h : Pieces e ps q) {M D : List LiveTable} {target : Memtable}
    {T : LiveTable} {e' : Engine} (hf : Flushed e M D target T e')
    (hsteady : q ≠ [] → ¬e.config.Full q) : ∃ ps', Pieces e' ps' q := by
  obtain ⟨p, ps', rfl⟩ : ∃ p ps', ps = p :: ps' := by
    rcases ps with _ | ⟨p, ps'⟩
    · have := hf.oldest
      rw [h.immutables] at this
      cases this
    · exact ⟨p, ps', rfl⟩
  have htarget : target = e.config.memtable p := by
    have := hf.oldest
    rw [h.immutables] at this
    simpa using this.symm
  have hinc := h.log.increasing
  rw [h.records, List.flatten_cons, List.append_assoc] at hinc
  have hpinc := (List.pairwise_append.mp hinc).1
  have hmax : T.info.maxSeqno = WalLog.maxSeqno p :=
    maxSeqno_of_memtable (h.fills p (by simp)).nonempty hpinc (by rw [hf.rows, htarget])
  have hold : e.manifest.maxSeqno ≤ WalLog.maxSeqno p := by
    obtain ⟨r, hr⟩ := List.exists_mem_of_ne_nil p (h.fills p (by simp)).nonempty
    refine (h.flushed r ?_).le.trans (WalLog.le_maxSeqno hr)
    rw [h.records]
    simp [hr]
  have hwater : (e.manifest.addTable T.info).maxSeqno = WalLog.maxSeqno p := by
    rw [addTable_maxSeqno, hmax]
    exact max_eq_left hold
  obtain ⟨files, misindexed, rfl⟩ := hf.eq
  have hrecords := WalLog.records_removeCovered h.log (h.cuts p (by simp))
  have hmem : ∀ r, r ∈ WalLog.records (e.wal.removeSegmentsCovered (WalLog.maxSeqno p)).1.dir →
      r ∈ WalLog.records e.wal.dir ∧ WalLog.maxSeqno p < r.seqno := by
    intro r hr
    rw [hrecords, List.mem_filter] at hr
    simpa using hr
  obtain ⟨dir, maxima, heq⟩ := WalLog.foldl_removeStep_eq (WalLog.maxSeqno p) e.wal e.wal.dir.keys
  refine ⟨ps', ?_⟩
  rw [hwater]
  refine ⟨?_, ?_, fun r hr => h.fits r (hmem r hr).1, ?_, ?_, h.active,
    fun p' hp' => h.fills p' (List.mem_cons_of_mem _ hp'), h.growing, ?_,
    fun hne hfull => absurd hfull (hsteady hne),
    fun p' hp' => (h.cuts p' (List.mem_cons_of_mem _ hp')).removeCovered h.log, ?_, ?_⟩
  · show WalLog.Intact (e.wal.removeSegmentsCovered _).1
    rw [WalLog.removeSegmentsCovered_eq]
    exact h.log.removeFirst _ _
  · show (e.wal.removeSegmentsCovered _).1.isOpen = true
    rw [Wal.removeSegmentsCovered, heq]
    exact h.isOpen
  · show WalLog.records (e.wal.removeSegmentsCovered _).1.dir = _
    rw [hrecords, h.records, List.flatten_cons, List.append_assoc]
    exact filter_above hinc (h.fills p (by simp)).nonempty
  · show e.immutables.dropLast = _
    rw [h.immutables]
    simp
  · have := h.room
    rw [List.length_cons] at this
    show ps'.length ≤ e.config.maxImmutableTables
    omega
  · intro r hr
    show (e.manifest.addTable T.info).maxSeqno < r.seqno
    rw [hwater]
    exact (hmem r hr).2
  · show (e.manifest.addTable T.info).maxSeqno ≤ (e.wal.removeSegmentsCovered _).1.lastSeqno
    rw [hwater, Wal.removeSegmentsCovered, heq]
    exact h.maxSeqno_le (by simp)

/-- A compaction lists nothing newer than there was. -/
theorem Compacted.maxSeqno_le {M D M' D' : List LiveTable} {choice : Option (List ℕ)} {now : ℕ}
    {e' : Engine} (h : Holds e M D) (hc : Compacted e M D choice now e' M' D') :
    e'.manifest.maxSeqno ≤ e.manifest.maxSeqno := by
  obtain ⟨ids, front, inputs, back, out, -, hs, hmerges, hperm, -⟩ := hc.plan
  refine Manifest.maxSeqno_le (fun t ht => ?_)
  rw [← hc.holds.manifest] at ht
  obtain ⟨T, hT, rfl⟩ := List.mem_map.mp ht
  rw [hperm.mem_iff, ← List.append_assoc] at hT
  rcases List.mem_append.mp hT with hT | hT
  · exact Manifest.le_maxSeqno (h.mem_manifest (hs.mem.mpr (.inl hT)))
  · obtain ⟨k, r, hk, hr⟩ := T.exists_top
    obtain ⟨U, hU, hkU⟩ := exists_of_tableHit (hmerges.of_find? (Option.mem_toList.mp hT) hk)
    rw [← hr]
    exact (LiveTable.seqno_le hkU).trans
      (Manifest.le_maxSeqno (h.mem_manifest (hs.mem.mpr (.inr hU))))

theorem Pieces.of_sameMemory (h : Pieces e ps q) {e' : Engine} (hs : SameMemory e e')
    (hm : e'.manifest.maxSeqno ≤ e.manifest.maxSeqno) : Pieces e' ps q where
  log := hs.wal ▸ h.log
  isOpen := hs.wal ▸ h.isOpen
  fits := hs.wal ▸ h.fits
  records := hs.wal ▸ h.records
  immutables := by rw [hs.immutables, hs.config, h.immutables]
  active := by rw [hs.active, hs.config, h.active]
  fills := hs.config ▸ h.fills
  growing := hs.config ▸ h.growing
  room := hs.config ▸ h.room
  deferred := hs.config ▸ h.deferred
  cuts := hs.wal ▸ h.cuts
  flushed r hr := hm.trans_lt (h.flushed r (hs.wal ▸ hr))
  counter := hm.trans (hs.wal ▸ h.counter)

end

/-! ## A session -/

/-- Every flush runs to its end. -/
def FlushesFinish (e : Engine) : Call → Prop
  | .flushOne now => (e.flushOne now).2.isOk = true
  | _ => True

instance (e : Engine) : (c : Call) → Decidable (FlushesFinish e c)
  | .flushOne _ => inferInstanceAs (Decidable (_ = true))
  | .put _ _ | .remove _ | .runCompaction .. => inferInstanceAs (Decidable True)

/-- Records stay within what the log's scanner takes, and no flush comes while a rotation of
the active memtable is put off. -/
def Steady (e : Engine) : Call → Prop
  | .put key value => kMinPayload + key.length + value.length ≤ kMaxPayload
  | .remove key => kMinPayload + key.length ≤ kMaxPayload
  | .flushOne _ => e.immutables.length = 0 ∨ e.active.entries = 0 ∨
      e.active.bytes < e.config.memtableMaxBytes
  | .runCompaction .. => True

instance (e : Engine) : (c : Call) → Decidable (Steady e c)
  | .put _ _ | .remove _ => inferInstanceAs (Decidable (_ ≤ _))
  | .flushOne _ => inferInstanceAs (Decidable (_ ∨ _))
  | .runCompaction .. => inferInstanceAs (Decidable True)

/-- An open store whose memtables and tables are in order. -/
structure InSession (config : Config) (e : Engine) : Prop where
  config : e.config = config
  isOpen : e.closed = false
  tables : ∃ M D, Holds e M D
  readers : e.version.tables = e.readers
  pieces : ∃ ps q, Pieces e ps q

theorem entries_memtable (c : Config) {rs : List Record} (h : rs ≠ []) :
    (c.memtable rs).entries ≠ 0 := by
  obtain ⟨s, r, rfl⟩ : ∃ s r, rs = s ++ [r] := ⟨_, _, (List.dropLast_append_getLast h).symm⟩
  have hlast := Memtable.find?_ofRecords_last c.overheadBytesPerEntry s r
  intro hzero
  have hnil : (c.memtable (s ++ [r])).map.entries = [] := List.length_eq_zero_iff.mp hzero
  have hmem := find?_eq_some_iff.mp hlast
  rw [hnil] at hmem
  cases hmem

theorem InSession.write {config : Config} {e : Engine} (h : InSession config e) {del : Bool}
    {key value : Bytes} (hfits : kMinPayload + key.length + value.length ≤ kMaxPayload) :
    InSession config (e.write del key value).1 := by
  obtain ⟨ps, q, hpieces⟩ := h.pieces
  rcases write_cases hpieces.log del key value with ⟨x, heq⟩ | ⟨r, e', hdel, hkey, hvalue, hw, heq⟩
  · rw [heq]
    exact h
  rw [heq]
  have hfit : WalLog.Fits r := by
    rw [WalLog.Fits, payloadSize, hkey, hvalue]
    exact hfits
  have hnew := hpieces.write hfit hw
  obtain ⟨M, D, hM⟩ := h.tables
  obtain ⟨l, -, hcases⟩ := hw.applied
  rcases hcases with ⟨-, rfl⟩ | ⟨-, l', -, rfl⟩
  · exact ⟨h.config, h.isOpen, ⟨M, D, hM.of_eq rfl rfl rfl rfl rfl⟩, h.readers, hnew⟩
  · exact ⟨h.config, h.isOpen, ⟨M, D, hM.of_eq rfl rfl rfl rfl rfl⟩, rfl, hnew⟩

theorem InSession.perform {config : Config} {e : Engine} (h : InSession config e) {c : Call}
    (hfinish : FlushesFinish e c) (hsteady : Steady e c) : InSession config (e.perform c) := by
  obtain ⟨M, D, hM⟩ := h.tables
  obtain ⟨ps, q, hpieces⟩ := h.pieces
  cases c with
  | put key value => exact h.write hsteady
  | remove key => exact h.write hsteady
  | flushOne now =>
    rcases hM.flushOne now with ⟨heq, -⟩ | ⟨target, T, hf, -⟩ | ⟨target, T, -, hres⟩
    · show InSession config (e.flushOne now).1
      rw [heq]
      exact h
    · have hnew := hpieces.flush hf (fun hq hfull => by
        rcases hsteady with hnone | hzero | hlt
        · have holdest := hf.oldest
          rw [List.length_eq_zero_iff.mp hnone] at holdest
          cases holdest
        · rw [hpieces.active] at hzero
          exact entries_memtable e.config hq hzero
        · rw [hpieces.active] at hlt
          exact absurd hfull (not_le.mpr hlt))
      obtain ⟨ps', hnew⟩ := hnew
      obtain ⟨files, misindexed, heq⟩ := hf.eq
      show InSession config (e.flushOne now).1
      refine ⟨?_, ?_, ⟨_, _, hf.holds⟩, ?_, ps', q, hnew⟩
      · rw [heq]
        exact h.config
      · rw [heq]
        exact h.isOpen
      · rw [heq]
    · rw [FlushesFinish, hres] at hfinish
      cases hfinish
  | runCompaction inputs now created =>
    rcases hM.runCompaction h.readers inputs now created with heq | ⟨⟨M', D', hc⟩, hs, hv⟩
    · show InSession config (e.runCompaction inputs now created).1
      rw [heq]
      exact h
    · exact ⟨hs.config.trans h.config, hs.closed.trans h.isOpen, ⟨M', D', hc.holds⟩, hv, ps, q,
        hpieces.of_sameMemory hs (hc.maxSeqno_le hM)⟩

theorem inSession_open {config : Config} {e : Engine} (h : Engine.open config {} = .ok e) :
    InSession config e := by
  obtain ⟨M, hperm, -, hM⟩ := exists_loaded disk_holds_empty config
  obtain rfl := List.Perm.eq_nil hperm
  obtain rfl := eq_of_open h
  have hrec : Recovers config {} (Engine.loaded config {}).recover :=
    recovers_recover config (fun _ hp => nomatch hp) (fun _ hr => nomatch hr) .nil
  have hmem := hrec.memtables
  have hsegs := hrec.segments
  have hrecords := hrec.records
  have hzero : (Engine.loaded config {}).recover.manifest.maxSeqno = 0 := by
    rw [recover_eq]
    rfl
  have hconfig : (Engine.loaded config {}).recover.config = config := by rw [recover_eq]; rfl
  refine ⟨hconfig, by rw [recover_eq]; rfl, ⟨[], [], hM⟩, by rw [recover_eq], [], [], hrec.log,
    hrec.isOpen, ?_, hrecords, congrArg Memtables.immutables hmem, ?_, nofun, Config.growing_nil,
    Nat.zero_le _, fun hne => absurd rfl hne, nofun, ?_, ?_⟩
  · rw [hrecords]
    exact fun _ hr => nomatch hr
  · rw [hconfig]
    exact congrArg Memtables.active hmem
  · rw [hrecords]
    exact fun _ hr => nomatch hr
  · rw [hzero]
    exact Nat.zero_le _

/-- Closing without a flush and opening again rebuilds the memtables. -/
def Rebuilds (config : Config) (e : Engine) : Prop :=
  ∃ e', Engine.open config e.close.disk = .ok e' ∧ e'.immutables = e.immutables ∧
    e'.active = e.active

theorem Pieces.replayed {e : Engine} {ps : List (List Record)} {q : List Record}
    (h : Pieces e ps q) :
    e.config.replayed (WalLog.records e.wal.dir) = ⟨e.active, e.immutables⟩ := by
  have hroom : ps.length + ([] : List Memtable).length ≤ e.config.maxImmutableTables := h.room
  rw [Config.replayed, h.records, List.foldl_append, foldl_take_pieces h.fills hroom,
    foldl_take_growing h.growing, h.active, h.immutables, List.append_nil]
  intro hfull hne
  simpa using h.deferred hne hfull

theorem InSession.rebuilds {config : Config} {e : Engine} (h : InSession config e)
    (hbits : e.FiniteBits) : Rebuilds config e := by
  obtain ⟨M, D, hM⟩ := h.tables
  obtain ⟨ps, q, hpieces⟩ := h.pieces
  obtain ⟨hsealed, hrecords⟩ := hpieces.log.toLive.close hpieces.isOpen
  have hclose : e.close.disk = { e.disk with wal := e.wal.close.dir } := by
    rw [Engine.close, h.isOpen]
    rfl
  have hdisk : Disk.Holds e.close.disk D := by
    rw [hclose]
    exact ⟨hM.disk.stored, hM.disk.files, hM.disk.inj, hM.disk.nodup⟩
  have hopen := open_of_holds hdisk hbits.close config
  have hrec : Recovers config e.close.disk (Engine.loaded config e.close.disk).recover := by
    rw [hclose]
    exact recovers_recover config hsealed (hrecords.symm ▸ hpieces.fits)
      (hrecords.symm ▸ hpieces.log.increasing)
  have hmem := hrec.memtables
  rw [hclose] at hmem
  rw [show WalLog.records ({ e.disk with wal := e.wal.close.dir } : Disk).wal = _ from hrecords,
    ← h.config, hpieces.replayed] at hmem
  rw [h.config, ← hclose] at hmem
  exact ⟨_, hopen, congrArg Memtables.immutables hmem, congrArg Memtables.active hmem⟩

/-- In a session on an empty directory whose calls are all steady and whose manifests can be
read, the memtables can be rebuilt at every moment. -/
theorem rebuilds_of_steady (config : Config) {e₀ e : Engine}
    (hopen : Engine.open config {} = .ok e₀)
    (hrun : Engine.Runs (fun e c => FlushesFinish e c ∧ Steady e c ∧ e.OutputFinite c ∧
      e.InRange c) e₀ e) : Rebuilds config e := by
  have hsession : InSession config e ∧ e.FiniteBits :=
    hrun.invariant (P := fun e => InSession config e ∧ e.FiniteBits)
      (fun _ _ h hc => ⟨h.1.perform hc.1 hc.2.1, h.2.perform hc.2.2.1⟩)
      ⟨inSession_open hopen, .of_open hopen⟩
  exact hsession.1.rebuilds hsession.2

/-- Memtables for one row each and room for one immutable. -/
def tightStore : Engine := (Engine.loaded (Config.small 1 1 1000) {}).recover

theorem rebuilds_tightStore :
    Rebuilds (Config.small 1 1 1000)
      (tightStore.performAll [.put [97] [1], .flushOne 5, .put [98] [2], .remove [97]]) :=
  rebuilds_of_steady (Config.small 1 1 1000) rfl (Engine.runs_performAll (by decide +kernel))

/-- A flush makes room for the rotation the second write had to put off: replay rotates where
the store did not. -/
theorem not_rebuilds_tightStore :
    Engine.open (Config.small 1 1 1000) {} = .ok tightStore ∧
      Engine.Runs FlushesFinish tightStore
        (tightStore.performAll [.put [97] [1], .put [98] [2], .flushOne 5]) ∧
      ¬Rebuilds (Config.small 1 1 1000)
        (tightStore.performAll [.put [97] [1], .put [98] [2], .flushOne 5]) := by
  refine ⟨rfl, Engine.runs_performAll (by decide +kernel), ?_⟩
  rintro ⟨e', hopen, himm, -⟩
  have hcount : (Engine.open (Config.small 1 1 1000) (tightStore.performAll
      [.put [97] [1], .put [98] [2], .flushOne 5]).close.disk).map
        (fun e => e.immutables.length) = .ok 1 := by decide +kernel
  rw [hopen, Except.map, himm] at hcount
  exact absurd (Except.ok.inj hcount) (by decide +kernel)

end LsmKv
