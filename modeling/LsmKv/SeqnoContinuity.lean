import LsmKv.Backpressure
import LsmKv.History

/-!
# Sequence numbers across restarts

The counter starts from the greatest number in the log or the manifest. It goes on where it
stopped as long as no compaction drops the row with the greatest number while nothing else
tells of it.
-/

namespace LsmKv
open Sst (TableMeta)
open WalFormat OrderedMap

/-! ## Removing segments -/

namespace WalLog

/-- Removal leaves an end of the log, and what goes is at or below the watermark. -/
theorem exists_removed {l : Wal Record} (h : Intact l) (w : ℕ) :
    ∃ gone, records l.dir = gone ++ records (l.removeSegmentsCovered w).1.dir ∧
      ∀ r ∈ gone, r.seqno ≤ w := by
  rw [removeSegmentsCovered_eq]
  exact h.records_removeFirst w _

theorem maxSeqno_suffix {rs gone : List Record} (hne : rs ≠ [])
    (h : (gone ++ rs).Pairwise (fun a b => a.seqno < b.seqno)) :
    maxSeqno (gone ++ rs) = maxSeqno rs := by
  obtain ⟨s, r, rfl⟩ : ∃ s r, rs = s ++ [r] := ⟨_, _, (List.dropLast_append_getLast hne).symm⟩
  rw [maxSeqno_of_pairwise (List.pairwise_append.mp h).2.1]
  rw [← List.append_assoc] at h ⊢
  exact maxSeqno_of_pairwise h

end WalLog

/-! ## An open store -/

/-- No row of the memtable is above `n`. -/
def Memtable.UpTo (n : ℕ) (m : Memtable) : Prop := ∀ p ∈ m.map.entries, p.2.seqno ≤ n

theorem Memtable.UpTo.mono {n n' : ℕ} {m : Memtable} (h : m.UpTo n) (hn : n ≤ n') : m.UpTo n' :=
  fun p hp => (h p hp).trans hn

theorem Memtable.UpTo.applyRecord {n : ℕ} {m : Memtable} (h : m.UpTo n) {r : Record}
    (hr : r.seqno ≤ n) : (m.applyRecord r).UpTo n := by
  intro p hp
  have hfind := find?_eq_some_iff.mpr (show (p.1, p.2) ∈ _ from hp)
  rw [Memtable.applyRecord, Memtable.map_apply, find?_insert] at hfind
  split at hfind
  · rw [← Option.some.inj hfind]
    exact hr
  · exact h _ (find?_eq_some_iff.mp hfind)

theorem upTo_memtable {c : Config} {rs : List Record} {n : ℕ} (h : ∀ r ∈ rs, r.seqno ≤ n) :
    (c.memtable rs).UpTo n := by
  intro p hp
  obtain ⟨r, hr, -, hrow⟩ :=
    Memtable.exists_of_find?_ofRecords (find?_eq_some_iff.mpr (show (p.1, p.2) ∈ _ from hp))
  rw [← hrow]
  exact h r hr

/-- The log, when it holds a record, or else a table of each list tells the counter. -/
structure Counted (e : Engine) (M D : List LiveTable) : Prop where
  log : WalLog.Intact e.wal
  walOpen : e.wal.isOpen = true
  isOpen : e.closed = false
  fits : ∀ r ∈ WalLog.records e.wal.dir, WalLog.Fits r
  holds : Holds e M D
  version : e.version.tables = e.readers
  memory : ∀ m ∈ e.active :: e.immutables, m.UpTo e.wal.lastSeqno
  tables : ∀ T ∈ M ++ D, T.info.maxSeqno ≤ e.wal.lastSeqno
  logged : WalLog.records e.wal.dir ≠ [] →
    WalLog.maxSeqno (WalLog.records e.wal.dir) = e.wal.lastSeqno
  kept : WalLog.records e.wal.dir = [] → e.wal.lastSeqno = 0 ∨
    (∃ T ∈ M, T.info.maxSeqno = e.wal.lastSeqno) ∧ ∃ T ∈ D, T.info.maxSeqno = e.wal.lastSeqno

section
variable {e e' : Engine} {M D M' D' : List LiveTable}

theorem Counted.write (h : Counted e M D) {r : Record} (hfit : WalLog.Fits r)
    (hw : Writes e r e') : Counted e' M D ∧ e.wal.lastSeqno < r.seqno ∧
      e'.wal.lastSeqno = r.seqno := by
  obtain ⟨l, happ, hcases⟩ := hw.applied
  have hlt : e.wal.lastSeqno < r.seqno := hw.fresh ▸ Nat.lt_succ_self _
  have hmax : WalLog.maxSeqno (WalLog.records l.dir) = r.seqno := by
    rw [happ.records]
    exact WalLog.maxSeqno_snoc (fun a ha => (h.log.bounded a ha).trans hlt.le)
  have hfits : ∀ a ∈ WalLog.records l.dir, WalLog.Fits a := happ.forall_records h.fits hfit
  have hne : WalLog.records l.dir ≠ [] := by
    rw [happ.records]
    simp
  have hle : ∀ T ∈ M ++ D, T.info.maxSeqno ≤ r.seqno := fun T hT => (h.tables T hT).trans hlt.le
  obtain ⟨hactive, hold⟩ := List.forall_mem_cons.mp h.memory
  have hmemory : ∀ m ∈ e.active.applyRecord r :: e.immutables, m.UpTo r.seqno :=
    List.forall_mem_cons.mpr ⟨(hactive.mono hlt.le).applyRecord le_rfl,
      fun m hm => (hold m hm).mono hlt.le⟩
  rcases hcases with ⟨-, rfl⟩ | ⟨-, l', hroll, rfl⟩
  · exact ⟨⟨happ.intact, happ.isOpen, h.isOpen, hfits, h.holds.of_eq rfl rfl rfl rfl rfl, h.version,
      fun m hm => (hmemory m hm).mono happ.lastSeqno.ge,
      fun T hT => (hle T hT).trans happ.lastSeqno.ge, fun _ => hmax.trans happ.lastSeqno.symm,
      fun hnil => absurd hnil hne⟩, hlt, happ.lastSeqno⟩
  · have hrecords := hroll.records
    have hlast := hroll.lastSeqno.trans happ.lastSeqno
    exact ⟨⟨hroll.intact, hroll.isOpen, h.isOpen, hrecords ▸ hfits,
      h.holds.of_eq rfl rfl rfl rfl rfl, rfl,
      List.forall_mem_cons.mpr ⟨(fun _ hp => nomatch hp), fun m hm => (hmemory m hm).mono hlast.ge⟩,
      fun T hT => (hle T hT).trans hlast.ge,
      fun _ => (hrecords ▸ hmax).trans hlast.symm, fun hnil => absurd (hrecords ▸ hnil) hne⟩,
      hlt, hlast⟩

/-- A table of a memtable reaches no higher than the counter. -/
theorem Counted.le_lastSeqno (h : Counted e M D) {target : Memtable}
    (ht : e.immutables.getLast? = some target) {T : LiveTable} (hT : T.rows = target.map) :
    T.info.maxSeqno ≤ e.wal.lastSeqno := by
  obtain ⟨p, hp, hmax⟩ := T.attained
  rw [hT] at hp
  exact hmax ▸ h.memory target (List.mem_cons_of_mem _ (List.mem_of_getLast? ht)) p hp

theorem Counted.flush (h : Counted e M D) {target : Memtable} {T : LiveTable}
    (hf : Flushed e M D target T e') : Counted e' (T :: M) (T :: M) := by
  have hT := h.le_lastSeqno hf.oldest hf.rows
  obtain ⟨gone, hsplit, hgone⟩ :=
    WalLog.exists_removed h.log (e.manifest.addTable T.info).maxSeqno
  have hopen := WalLog.isOpen_removeCovered e.wal (e.manifest.addTable T.info).maxSeqno
  have hholds := hf.holds
  have htables : ∀ U ∈ T :: M, U.info.maxSeqno ≤ e.wal.lastSeqno :=
    List.forall_mem_cons.mpr ⟨hT, fun U hU => h.tables U (List.mem_append_left _ hU)⟩
  obtain rfl := hf.saved
  obtain ⟨files, misindexed, rfl⟩ := hf.eq
  have hinc := h.log.increasing
  rw [hsplit] at hinc
  refine ⟨WalLog.intact_removeCovered h.log _, hopen.1.trans h.walOpen, h.isOpen, fun r hr => ?_,
    hholds, rfl, fun m hm => ?_, fun U hU => ?_, fun hne => ?_, fun hnil => ?_⟩
  · exact h.fits r (hsplit ▸ List.mem_append_right _ hr)
  · refine (h.memory m ?_).mono hopen.2.ge
    rcases List.mem_cons.mp hm with rfl | hm
    · exact List.mem_cons_self
    · exact List.mem_cons_of_mem _ (List.dropLast_subset _ hm)
  · exact (htables U ((List.mem_append.mp hU).elim id id)).trans hopen.2.ge
  · refine Eq.trans ?_ (hopen.2.symm)
    rw [← WalLog.maxSeqno_suffix hne hinc, ← hsplit]
    exact h.logged (by rw [hsplit]; simp [hne])
  · -- a log left without records is covered to its end
    have hcovered : e.wal.lastSeqno ≤ (e.manifest.addTable T.info).maxSeqno ∨
        e.wal.lastSeqno = 0 := by
      by_cases hrecords : WalLog.records e.wal.dir = []
      · rcases h.kept hrecords with hzero | ⟨⟨U, hU, hmax⟩, -⟩
        · exact .inr hzero
        · exact .inl (hmax ▸ Manifest.le_maxSeqno
            (List.mem_cons_of_mem _ (h.holds.mem_manifest hU)))
      · rw [← h.logged hrecords]
        refine .inl (WalLog.maxSeqno_le (fun r hr => hgone r ?_))
        rw [hsplit, show WalLog.records (e.wal.removeSegmentsCovered _).1.dir = [] from hnil,
          List.append_nil] at hr
        exact hr
    rcases hcovered with hle | hzero
    · rcases (e.manifest.addTable T.info).exists_maxSeqno with hzero | ⟨t, ht, hmax⟩
      · exact .inl (hopen.2.trans (by omega))
      · rw [← hholds.manifest] at ht
        obtain ⟨U, hU, rfl⟩ := List.mem_map.mp ht
        have heq : U.info.maxSeqno = e.wal.lastSeqno :=
          le_antisymm (htables U hU) (hle.trans hmax.ge)
        exact .inr ⟨⟨U, hU, heq.trans hopen.2.symm⟩, U, hU, heq.trans hopen.2.symm⟩
    · exact .inl (hopen.2.trans hzero)

theorem Counted.halfFlush (h : Counted e M D) {target : Memtable} {T : LiveTable}
    (hf : HalfFlushed e M D target T e') : Counted e' (T :: M) D := by
  have hT := h.le_lastSeqno hf.oldest hf.rows
  have hholds := hf.holds
  obtain ⟨files, misindexed, rfl⟩ := hf.eq
  refine ⟨h.log, h.walOpen, h.isOpen, h.fits, hholds, h.version, h.memory, ?_, h.logged,
    fun hnil => ?_⟩
  · rw [List.cons_append]
    exact List.forall_mem_cons.mpr ⟨hT, h.tables⟩
  · exact (h.kept hnil).imp_right
      (fun ⟨⟨U, hU, hmax⟩, hD⟩ => ⟨⟨U, List.mem_cons_of_mem _ hU, hmax⟩, hD⟩)

/-! ## Compactions -/

/-- Merging `ids` leaves the row with the greatest number, unless the log holds a record or a
table outside reaches as high. -/
def TopStays (ids : List ℕ) (now : ℕ) (e : Engine) : Prop :=
  WalLog.records e.wal.dir ≠ [] ∨
    (∃ t ∈ e.manifest.tables, t.id ∉ ids ∧ t.maxSeqno = e.manifest.maxSeqno) ∨
    ∃ t ∈ e.inputMeta ids, ∃ rows ∈ e.files.find? t.id, ∃ p ∈ rows.entries,
      p.2.seqno = e.manifest.maxSeqno ∧
      Engine.findTables e.files p.1 (e.inputMeta ids) = .ok (some p.2) ∧
      e.drops ids now p.2 = false

instance (ids : List ℕ) (now : ℕ) (e : Engine) : Decidable (TopStays ids now e) :=
  inferInstanceAs (Decidable (_ ∨ _ ∨ _))

/-- Writes fit the scanner's cap, and no compaction forgets the greatest number. -/
def KeepsTop (e : Engine) : Call → Prop
  | .put key value => kMinPayload + key.length + value.length ≤ kMaxPayload
  | .remove key => kMinPayload + key.length ≤ kMaxPayload
  | .flushOne _ => True
  | .runCompaction inputs now _ =>
    ∀ ids ∈ (e.chooseInputs inputs).toOption.join, TopStays ids now e

instance (e : Engine) : (c : Call) → Decidable (KeepsTop e c)
  | .put _ _ | .remove _ => inferInstanceAs (Decidable (_ ≤ _))
  | .flushOne _ => inferInstanceAs (Decidable True)
  | .runCompaction inputs now _ => inferInstanceAs
      (Decidable (∀ ids ∈ (e.chooseInputs inputs).toOption.join, TopStays ids now e))

theorem TopStays.of_compacted (h : Counted e M D) {ids : List ℕ} {now : ℕ}
    (ht : TopStays ids now e) (hnil : WalLog.records e.wal.dir = [])
    {front inputs back : List LiveTable} {out : Option LiveTable}
    (hs : Selects M ids front inputs back)
    (hm : Merges (front ++ back) inputs (e.drops ids now) out)
    (hperm : M'.Perm (front ++ (back ++ out.toList))) :
    ∃ T ∈ M', e.manifest.maxSeqno ≤ T.info.maxSeqno := by
  rcases ht with hne | ⟨t, ht, hid, hmax⟩ | ⟨t, -, rows, -, p, -, hseq, hfind, hdrop⟩
  · exact absurd hnil hne
  · rw [← h.holds.manifest] at ht
    obtain ⟨T, hT, rfl⟩ := List.mem_map.mp ht
    refine ⟨T, hperm.mem_iff.mpr ?_, hmax.ge⟩
    rw [← List.append_assoc]
    rcases hs.mem.mp hT with hT | hT
    · exact List.mem_append_left _ hT
    · exact absurd (hs.ids ▸ List.mem_map_of_mem hT) hid
  · have hfiles : ∀ T ∈ inputs, e.files.find? T.info.id = some T.rows := fun T hT =>
      h.holds.files T (List.mem_append_left _ (hs.mem.mpr (.inr hT)))
    rw [h.holds.inputMeta hs, findTables_eq hfiles] at hfind
    obtain ⟨T, hT, hrow⟩ := hm.exists_out (Except.ok.inj hfind) hdrop
    refine ⟨T, hperm.mem_iff.mpr ?_, hseq ▸ LiveTable.seqno_le hrow⟩
    exact List.mem_append_right _ (List.mem_append_right _ (Option.mem_toList.mpr hT))

theorem Counted.compact (h : Counted e M D) {choice : Option (List ℕ)} {now : ℕ}
    (hc : Compacted e M D choice now e' M' D') (hs : SameMemory e e')
    (hv : e'.version.tables = e'.readers)
    (hkeeps : ∀ ids ∈ (e.chooseInputs choice).toOption.join, TopStays ids now e) :
    Counted e' M' D' := by
  have hmanifest : e.manifest.maxSeqno ≤ e.wal.lastSeqno := by
    refine Manifest.maxSeqno_le (fun t ht => ?_)
    rw [← h.holds.manifest] at ht
    obtain ⟨T, hT, rfl⟩ := List.mem_map.mp ht
    exact h.tables T (List.mem_append_left _ hT)
  have hM' : ∀ T ∈ M', T.info.maxSeqno ≤ e.wal.lastSeqno := fun T hT =>
    (Manifest.le_maxSeqno (hc.holds.mem_manifest hT)).trans ((hc.maxSeqno_le h.holds).trans
      hmanifest)
  refine ⟨hs.wal ▸ h.log, hs.wal ▸ h.walOpen, hs.closed.trans h.isOpen, hs.wal ▸ h.fits, hc.holds,
    hv, ?_, fun T hT => ?_, hs.wal ▸ h.logged, ?_⟩ <;> rw [hs.wal]
  · rw [hs.active, hs.immutables]
    exact h.memory
  · rcases List.mem_append.mp hT with hm | hd
    · exact hM' T hm
    · rcases hc.readers with heq | heq
      · exact h.tables T (List.mem_append_right _ (heq ▸ hd))
      · exact hM' T (heq ▸ hd)
  · intro hnil
    refine (h.kept hnil).imp_right (fun ⟨⟨U, hU, hmax⟩, hD⟩ => ?_)
    obtain ⟨ids, front, inputs, back, out, hchoice, hsel, hmerges, hperm, -⟩ := hc.plan
    have hids : ids ∈ (e.chooseInputs choice).toOption.join := by
      rw [hchoice]
      rfl
    obtain ⟨T, hT, hle⟩ := (hkeeps ids hids).of_compacted h hnil hsel hmerges hperm
    have htop : T.info.maxSeqno = e.wal.lastSeqno := by
      refine le_antisymm (hM' T hT) ((hmax.ge.trans ?_).trans hle)
      exact Manifest.le_maxSeqno (h.holds.mem_manifest hU)
    refine ⟨⟨T, hT, htop⟩, ?_⟩
    rcases hc.readers with heq | heq
    · exact heq ▸ hD
    · exact ⟨T, heq ▸ hT, htop⟩

end

/-! ## Closing and opening -/

/-- A directory that tells the number `n` the counter had. -/
structure Disk.Counted (d : Disk) (D : List LiveTable) (n : ℕ) : Prop where
  log : WalLog.Sealed d.wal
  fits : ∀ r ∈ WalLog.records d.wal, WalLog.Fits r
  increasing : (WalLog.records d.wal).Pairwise (fun a b => a.seqno < b.seqno)
  holds : d.Holds D
  tables : ∀ T ∈ D, T.info.maxSeqno ≤ n
  logged : WalLog.records d.wal ≠ [] → WalLog.maxSeqno (WalLog.records d.wal) = n
  kept : WalLog.records d.wal = [] → n = 0 ∨ ∃ T ∈ D, T.info.maxSeqno = n

theorem Counted.close {e : Engine} {M D : List LiveTable} (h : Counted e M D) :
    e.close.disk.Counted D e.wal.lastSeqno := by
  obtain ⟨hsealed, hrecords⟩ := h.log.toLive.close h.walOpen
  have hwal : e.close.disk.wal = e.wal.close.dir := by
    rw [Engine.close, h.isOpen]
    rfl
  refine ⟨hwal ▸ hsealed, ?_, ?_, h.holds.close,
    fun T hT => h.tables T (List.mem_append_right _ hT), ?_, ?_⟩ <;> rw [hwal, hrecords]
  · exact h.fits
  · exact h.log.increasing
  · exact h.logged
  · exact fun hnil => (h.kept hnil).imp_right And.right

theorem Disk.Counted.open {config : Config} {d : Disk} {D : List LiveTable} {n : ℕ}
    (h : d.Counted D n) {e : Engine} (ho : Engine.open config d = .ok e) :
    e.wal.lastSeqno = n ∧ ∃ M, LsmKv.Counted e M M := by
  obtain ⟨M, hperm, -, hM⟩ := exists_loaded h.holds config
  obtain rfl := eq_of_open ho
  have hrec := recovers_recover config h.log h.fits h.increasing
  have htables : ∀ T ∈ M, T.info.maxSeqno ≤ n := fun T hT => h.tables T (hperm.mem_iff.mp hT)
  have hmanifest : (Engine.loaded config d).recover.manifest.maxSeqno ≤ n := by
    refine Manifest.maxSeqno_le (fun t ht => ?_)
    rw [← hM.manifest] at ht
    obtain ⟨T, hT, rfl⟩ := List.mem_map.mp ht
    exact htables T hT
  have hlast : (Engine.loaded config d).recover.wal.lastSeqno = n := by
    rw [hrec.lastSeqno]
    by_cases hnil : WalLog.records d.wal = []
    · rw [hnil]
      rcases h.kept hnil with rfl | ⟨T, hT, hmax⟩
      · exact Nat.le_zero.mp (max_le le_rfl hmanifest)
      · have := Manifest.le_maxSeqno (hM.mem_manifest (hperm.mem_iff.mpr hT))
        exact le_antisymm (max_le (Nat.zero_le _) hmanifest)
          ((hmax.ge.trans this).trans (le_max_right _ _))
    · rw [h.logged hnil]
      exact max_eq_left hmanifest
  have hmemory : ∀ m ∈ (Engine.loaded config d).recover.active ::
      (Engine.loaded config d).recover.immutables, m.UpTo n := by
    have hall : ∀ r ∈ WalLog.records d.wal, r.seqno ≤ n := fun r hr =>
      (WalLog.le_maxSeqno hr).trans (h.logged (List.ne_nil_of_mem hr)).le
    obtain ⟨ps, q, hsplit, -, hreplayed⟩ := config.exists_pieces (WalLog.records d.wal)
    have hmemtables := hrec.memtables.trans hreplayed
    rw [hsplit] at hall
    have hactive : (Engine.loaded config d).recover.active = config.memtable q :=
      congrArg Memtables.active hmemtables
    have himmutables : (Engine.loaded config d).recover.immutables =
        (ps.map config.memtable).reverse := congrArg Memtables.immutables hmemtables
    rw [hactive, himmutables]
    refine List.forall_mem_cons.mpr ⟨upTo_memtable (fun r hr =>
      hall r (List.mem_append_right _ hr)), fun m hm => ?_⟩
    obtain ⟨p, hp, rfl⟩ := List.mem_map.mp (List.mem_reverse.mp hm)
    exact upTo_memtable (fun r hr =>
      hall r (List.mem_append_left _ (List.mem_flatten.mpr ⟨p, hp, hr⟩)))
  refine ⟨hlast, M, hrec.log, hrec.isOpen, by rw [recover_eq]; rfl, ?_, hM, by rw [recover_eq],
    hlast.symm ▸ hmemory, fun T hT => ?_, fun hne => ?_, fun hnil => ?_⟩
  · rw [hrec.records]
    exact h.fits
  · exact (htables T ((List.mem_append.mp hT).elim id id)).trans hlast.ge
  · rw [hrec.records] at hne ⊢
    rw [hlast]
    exact h.logged hne
  · rw [hrec.records] at hnil
    rw [hlast]
    refine (h.kept hnil).imp_right (fun ⟨T, hT, hmax⟩ => ?_)
    exact ⟨⟨T, hperm.mem_iff.mpr hT, hmax⟩, T, hperm.mem_iff.mpr hT, hmax⟩

/-! ## Runs -/

/-- What was written has ascending numbers, up to the one the counter has or goes on from. -/
def Host.Counted (s : Host) (rs : List Record) : Prop :=
  rs.Pairwise (fun a b => a.seqno < b.seqno) ∧ match s with
    | .shut d => ∃ D n, d.Counted D n ∧ ∀ r ∈ rs, r.seqno ≤ n
    | .up e => (∃ M D, LsmKv.Counted e M D) ∧ ∀ r ∈ rs, r.seqno ≤ e.wal.lastSeqno

theorem counted_write {e : Engine} {rs : List Record} {M D : List LiveTable}
    (h : Counted e M D) (hinc : rs.Pairwise (fun a b => a.seqno < b.seqno))
    (hle : ∀ r ∈ rs, r.seqno ≤ e.wal.lastSeqno) {del : Bool} {key value : Bytes}
    (hfit : kMinPayload + key.length + value.length ≤ kMaxPayload) :
    Host.Counted (.up (e.write del key value).1) (rs ++ ((e.write del key value).2.toOption.map
      (fun n => (⟨del, key, value, n⟩ : Record))).toList) := by
  rcases Engine.accepted_cases h.log del key value with ⟨heq, hnone⟩ | ⟨r, hkey, hvalue, hw, hsome⟩
  · rw [heq, hnone, Option.toList_none, List.append_nil]
    exact ⟨hinc, ⟨M, D, h⟩, hle⟩
  · rw [hsome]
    have hfits : WalLog.Fits r := by
      rw [WalLog.Fits, payloadSize, hkey, hvalue]
      exact hfit
    obtain ⟨hnew, hlt, hlast⟩ := h.write hfits hw
    refine ⟨List.pairwise_append.mpr ⟨hinc, List.pairwise_singleton _ _, fun a ha b hb => ?_⟩,
      ⟨M, D, hnew⟩, fun a ha => ?_⟩
    · obtain rfl := List.mem_singleton.mp hb
      exact (hle a ha).trans_lt hlt
    · rw [hlast]
      rcases List.mem_append.mp ha with ha | ha
      · exact (hle a ha).trans hlt.le
      · exact (List.mem_singleton.mp ha ▸ le_rfl)

theorem counted_step {opens : Config → Prop} {s s' : Host} {rs rs' : List Record}
    (h : s.Counted rs)
    (hs : Host.Moves opens (fun e c => KeepsTop e c ∧ e.InRange c) (s, rs) (s', rs')) :
    s'.Counted rs' := by
  obtain ⟨hinc, hstate⟩ := h
  cases hs with
  | «open» hc ho =>
    obtain ⟨D, n, hD, hle⟩ := hstate
    obtain ⟨hlast, M, hM⟩ := hD.open ho
    exact ⟨hinc, ⟨M, M, hM⟩, fun r hr => (hle r hr).trans hlast.ge⟩
  | close =>
    obtain ⟨⟨M, D, hM⟩, hle⟩ := hstate
    exact ⟨hinc, D, _, hM.close, hle⟩
  | call hc =>
    rename_i e c
    obtain ⟨⟨M, D, hM⟩, hle⟩ := hstate
    have hquiet : ∀ e' : Engine, e'.wal.lastSeqno = e.wal.lastSeqno → (∃ M D, Counted e' M D) →
        Host.Counted (.up e') (rs ++ []) := fun e' hlast hnew =>
      ⟨by rwa [List.append_nil], hnew, fun r hr => by
        rw [hlast]
        exact hle r (by simpa using hr)⟩
    cases c with
    | put key value => exact counted_write hM hinc hle hc.1
    | remove key => exact counted_write hM hinc hle hc.1
    | flushOne now =>
      refine hquiet (e.flushOne now).1 ?_ ?_ <;>
        rcases hM.holds.flushOne now with ⟨heq, -⟩ | ⟨target, T, hf, -⟩ | ⟨target, T, hf, -⟩
      · rw [heq]
      · obtain ⟨files, misindexed, heq⟩ := hf.eq
        rw [heq]
        exact (WalLog.isOpen_removeCovered _ _).2
      · obtain ⟨files, misindexed, heq⟩ := hf.eq
        rw [heq]
      · rw [heq]
        exact ⟨M, D, hM⟩
      · exact ⟨_, _, hM.flush hf⟩
      · exact ⟨_, _, hM.halfFlush hf⟩
    | runCompaction inputs now created =>
      refine hquiet (e.runCompaction inputs now created).1 ?_ ?_ <;>
        rcases hM.holds.runCompaction hM.version inputs now created with
          heq | ⟨⟨M', D', hcomp⟩, hsame, hv⟩
      · rw [heq]
      · exact congrArg Wal.lastSeqno hsame.wal
      · rw [heq]
        exact ⟨M, D, hM⟩
      · exact ⟨_, _, hM.compact hcomp hsame hv hc.1⟩

/-- In sessions whose compactions keep the greatest number, the numbers handed out ascend, up to
the last there is. -/
theorem increasing_of_keepsTop (opens : Config → Prop) {s : Host} {rs : List Record}
    (hrun : Host.History opens (fun e c => KeepsTop e c ∧ e.InRange c) (.shut {}, []) (s, rs)) :
    rs.Pairwise (fun a b => a.seqno < b.seqno) := by
  have hempty : Host.Counted (.shut {}) [] := by
    refine ⟨.nil, [], 0, ⟨(fun _ hp => nomatch hp), (fun _ hr => nomatch hr), .nil,
      disk_holds_empty, nofun, fun hne => absurd rfl hne, fun _ => .inl rfl⟩, nofun⟩
  exact (hrun.invariant (fun _ _ _ _ h hs => counted_step h hs) hempty).1

/-- A key written, removed and compacted away, with a row of another key behind it or not. -/
def comeAndGone (others : List Call) : List Call :=
  [.put [97] [1], .flushOne 5, .remove [97], .flushOne 5] ++ others ++
    [.runCompaction (some [1, 2]) 9 9]

theorem increasing_comeAndGone :
    ((Host.opened oneRow {}).acceptedAll (comeAndGone [.put [98] [2], .flushOne 5])).Pairwise
      (fun a b => a.seqno < b.seqno) := by
  have hrun : Host.History (fun c => c = oneRow) (fun e c => KeepsTop e c ∧ e.InRange c)
      (.shut {}, [])
      (.up ((Host.opened oneRow {}).performAll (comeAndGone [.put [98] [2], .flushOne 5])),
        [] ++ (Host.opened oneRow {}).acceptedAll (comeAndGone [.put [98] [2], .flushOne 5])) :=
    Host.history_session rfl (by decide +kernel) (by decide +kernel)
  exact increasing_of_keepsTop (fun c => c = oneRow) hrun

/-- Once nothing tells of their numbers, the next session hands them out again. -/
theorem not_increasing_comeAndGone :
    Host.History (fun c => c = oneRow) (fun _ _ => True) (.shut {}, [])
        (.shut (Host.after {} [(oneRow, comeAndGone []), (oneRow, [.put [97] [2]])]),
          [⟨false, [97], [1], 1⟩, ⟨true, [97], [], 2⟩, ⟨false, [97], [2], 1⟩]) ∧
      ¬[(⟨false, [97], [1], 1⟩ : Record), ⟨true, [97], [], 2⟩, ⟨false, [97], [2], 1⟩].Pairwise
        (fun a b => a.seqno < b.seqno) := by
  refine ⟨?_, by decide⟩
  have hwritten : [] ++ Host.written {} [(oneRow, comeAndGone []), (oneRow, [.put [97] [2]])] =
      [⟨false, [97], [1], 1⟩, ⟨true, [97], [], 2⟩, ⟨false, [97], [2], 1⟩] := by decide +kernel
  rw [← hwritten]
  exact Host.history_after (by simp) (by decide +kernel)

end LsmKv
