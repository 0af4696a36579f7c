import LsmKv.WalLife

/-!
# Durability over whole runs

A crash leaves a record log that is at most one sync interval shorter. Hence, over every run,
what recovery replays is a block at the end of the appended sequence, and no fsynced record
above the watermarks is missing from it. A run can leave this in two ways: the counter of records
wraps, and the name of a segment is cut.
-/

namespace LsmKv
open WalFormat WalLog

section
variable {s : Wal.Life} {l : Wal Record}

/-! ## A crash -/

/-- A new process stands on what a crash left, and the crash cost less than a sync interval. -/
theorem Tracks.restart (h : Tracks s l) {rs : List Record} {dir e'}
    (hl : FileNames.Listable dir) (hd : DirReads dir e') (ho : Outcome l rs e')
    (hinc : (records e').Pairwise (fun a b => a.seqno < b.seqno))
    (n rb : ℕ) :
    Tracks (s.restart n rb dir rs) (Wal.create e' n rb) ∧
      s.log.length ≤ (s.restart n rb dir rs).log.length + (s.wal.fsyncEveryN - 1) := by
  obtain ⟨front, hlog⟩ := h.suffix
  obtain ⟨rest, hwithin⟩ := ho.within
  have hread : ∀ r ∈ records e', Readable r := by
    intro r hr
    obtain ⟨p, hp, hrp⟩ := List.mem_flatMap.mp hr
    obtain ⟨q, -, hpq⟩ := forall₂_exists_left hd.files hp
    exact hpq.2.readable r hrp
  have hnew : (s.restart n rb dir rs).log = front ++ records e' := by
    show (s.log ++ rs).take (s.log.length - (Wal.replayed s.wal.dir).length +
      (Wal.replayed dir).length) = _
    rw [h.stands.replayed h.readable, replayed_dirReads hd, ← hlog, List.append_assoc, ← hwithin,
      ← List.append_assoc, List.length_append]
    refine List.take_left' ?_
    rw [List.length_append]
    omega
  refine ⟨⟨⟨hl, Nat.zero_lt_succ _⟩, .created n rb rfl rfl hd ho.stable, hread, hinc, ?_,
    fun r hr hw => ?_⟩, ?_⟩
  · rw [hnew]
    exact List.suffix_append _ _
  · show r ∈ durableRecords e'
    rw [durableRecords_of_sealed ho.stable]
    rcases List.mem_append.mp hr with hr | hr
    · exact ho.durable.subset (h.fsynced r hr hw)
    · rwa [syncedRecords_dirReads hd] at hr
  · have hlag := h.stands.lag
    have hdur := ho.durable.length_le
    rw [hnew, ← hlog, h.stands.fsyncEveryN, List.length_append, List.length_append]
    omega

theorem Outcome.increasing {rs : List Record} {e'} (ho : Outcome l rs e')
    (hinc : (records l.dir ++ rs).Pairwise (fun a b => a.seqno < b.seqno)) :
    (records e').Pairwise (fun a b => a.seqno < b.seqno) :=
  hinc.sublist ho.within.sublist

/-- What a crash of a run leads to. -/
def Survived (s s' : Wal.Life) : Prop :=
  (∃ l', Tracks s' l') ∧ s.log.length ≤ s'.log.length + (s.wal.fsyncEveryN - 1)

/-- A crash of an operation that was appending nothing. -/
theorem Tracks.survived (h : Tracks s l) {dir} (hl : FileNames.Listable dir)
    (ho : ∃ e', DirReads dir e' ∧ Outcome l [] e') (n rb : ℕ) :
    Survived s (s.restart n rb dir []) := by
  obtain ⟨e', hd, ho⟩ := ho
  have hrestart := h.restart hl hd ho (ho.increasing (by simpa using h.increasing)) n rb
  exact ⟨⟨_, hrestart.1⟩, hrestart.2⟩

theorem Tracks.idle (h : Tracks s l) {dir} (hc : Crash s.wal.dir dir) (n rb : ℕ) :
    Survived s (s.restart n rb dir []) := by
  refine h.survived (hc.listable h.listable.dir) ?_ n rb
  rcases h.stands with ⟨hb, hi, -⟩ | ⟨n', rb', -, -, hd, hs⟩
  · rw [hb] at hc
    exact (stage_self hi.toLive []).crash (by simpa using h.readable) hc
  · exact hd.outcome hs hc

theorem Tracks.crash_append (h : Tracks s l) {cut : Wal.Cut} {q : Wal.Request}
    (hq : s.Fits (.append cut q)) {dir} (hc : Crash (s.wal.request cut q).1.dir dir) (n rb : ℕ) :
    Survived s (s.restart n rb dir [s.wal.nextRecord q.isDel q.key q.value]) := by
  have hseq : (s.wal.lastSeqno + 1) % 2 ^ 64 = s.wal.lastSeqno + 1 := Nat.mod_eq_of_lt hq.seqno
  have hread := readable_record hq.seqno hq.payload
  have hlist := hc.listable (h.listable.request cut hq.name).dir
  have hnext : s.wal.nextRecord q.isDel q.key q.value = q.record (s.wal.lastSeqno + 1) := by
    rw [Wal.nextRecord, hseq]
    rfl
  rw [hnext]
  rcases h.stands with ⟨hb, hi, -⟩ | ⟨n', rb', hb, -, hd, hs⟩
  · have hlast : s.wal.lastSeqno = l.lastSeqno := by rw [hb]; rfl
    rw [hb] at hc
    obtain ⟨e, he⟩ := stage_request hi.toLive cut q
    rw [← hlast, hseq] at he
    obtain ⟨e', hd, ho⟩ := he.crash (fun r hr => by
      rcases List.mem_append.mp hr with hr | hr
      · exact h.readable r hr
      · obtain rfl := List.mem_singleton.mp hr
        exact hread) hc
    have hinc : (records l.dir ++ [q.record (s.wal.lastSeqno + 1)]).Pairwise
        (fun a b => a.seqno < b.seqno) := by
      refine List.pairwise_append.mpr ⟨h.increasing, List.pairwise_singleton _ _, ?_⟩
      intro a ha b hb
      obtain rfl := List.mem_singleton.mp hb
      exact Nat.lt_succ_of_le (hlast ▸ hi.bounded a ha)
    have hrestart := h.restart hlist hd ho (ho.increasing hinc) n rb
    exact ⟨⟨_, hrestart.1⟩, hrestart.2⟩
  · have herror : ∃ err, Wal.checkAppend s.wal.isOpen q.key q.value = .error err := by
      rw [hb]
      exact ⟨_, rfl⟩
    obtain ⟨err, herr⟩ := herror
    rw [Wal.request_error herr] at hc
    obtain ⟨e', hd', ho⟩ := hd.outcome hs hc
    have hinc := ho.increasing (by simpa using h.increasing)
    have ho' : Outcome l [q.record (s.wal.lastSeqno + 1)] e' :=
      ⟨ho.stable, ho.durable, ho.within.trans (by simp)⟩
    have hrestart := h.restart hlist hd' ho' hinc n rb
    exact ⟨⟨_, hrestart.1⟩, hrestart.2⟩

theorem Tracks.crash_roll (h : Tracks s l) {cut : Wal.Cut} (hq : s.Fits (.roll cut)) {dir}
    (hc : Crash (s.wal.roll cut).1.dir dir) (n rb : ℕ) :
    Survived s (s.restart n rb dir []) := by
  refine h.survived (hc.listable (h.listable.roll cut hq.name).dir) ?_ n rb
  rcases h.stands with ⟨hb, hi, -⟩ | ⟨n', rb', hb, -, hd, hs⟩
  · obtain ⟨e, he⟩ := stage_roll hi.toLive cut
    rw [hb] at hc
    exact he.crash (by simpa using h.readable) hc
  · have hsame : (s.wal.roll cut).1 = s.wal := by rw [hb]; rfl
    rw [hsame] at hc
    exact hd.outcome hs hc

theorem Tracks.crashes (h : Tracks s l) {s' : Wal.Life} (hc : Wal.Life.Crashes Wal.Life.Fits s s') :
    Survived s s' := by
  cases hc with
  | idle n rb hc => exact h.idle hc n rb
  | append cut q n rb hq hc => exact h.crash_append hq hc n rb
  | roll cut n rb hr hc => exact h.crash_roll hr hc n rb
  | remove watermark k n rb hc =>
    obtain ⟨l', hl'⟩ := h.remove watermark k
    obtain ⟨htracks, hlost⟩ := hl'.idle hc n rb
    refine ⟨htracks, ?_⟩
    have hsame : (s.wal.removeListed watermark k).fsyncEveryN = s.wal.fsyncEveryN := by
      rw [h.listable.removeListed_eq]
      obtain ⟨dir', m, heq⟩ := foldl_removeStep_eq watermark s.wal (s.wal.dir.keys.take k)
      rw [Wal.removeFirst, heq]
    rw [← hsame]
    exact hlost
  | scan k n rb ho hc =>
    have hu := h.stands.unopened h.readable ho
    rw [h.listable.repairListed_eq] at hc
    have hkeys : (Wal.repairFirst k s.wal.dir).keys = s.wal.dir.keys :=
      OrderedMap.keys_mapKeyed _ _
    have hlist : FileNames.Listable (Wal.repairFirst k s.wal.dir) := fun id hid =>
      h.listable.dir id (hkeys ▸ hid)
    exact h.survived (hc.listable hlist) ((hu.files.repairFirst k).outcome hu.stable hc) n rb
  | «open» cut n rb ho hc =>
    have hu := h.stands.unopened h.readable ho
    rw [h.listable.openListed_eq] at hc
    exact h.survived (hc.listable (h.listable.open cut).dir) (open_outcome hu.files hu.shape
      hu.stable h.increasing h.readable hu.fsync hu.lag cut hc) n rb

/-! ## Whole runs -/

theorem tracks_start (n rb : ℕ) : Tracks (Wal.Life.start n rb) (Wal.create ∅ n rb) := by
  refine ⟨⟨FileNames.listable_empty, Nat.zero_lt_succ _⟩, .created n rb rfl rfl ⟨.nil, ?_⟩ ?_,
    ?_, .nil, List.suffix_rfl, ?_⟩
  · intro p hp
    cases hp
  · intro p hp
    cases hp
  · intro r hr
    cases hr
  · intro r hr
    cases hr

theorem Tracks.step (h : Tracks s l) {s' : Wal.Life} (hs : Wal.Life.Step Wal.Life.Fits s s') :
    ∃ l', Tracks s' l' := by
  cases hs with
  | «open» ho => exact ⟨_, h.open ho⟩
  | append q hq => exact h.append hq
  | roll hr => exact h.roll hr
  | remove watermark => exact h.remove watermark _
  | close => exact h.close
  | crash hc => exact (h.crashes hc).1

theorem exists_tracks {n rb : ℕ}
    (h : Relation.ReflTransGen (Wal.Life.Step Wal.Life.Fits) (Wal.Life.start n rb) s) :
    ∃ l, Tracks s l := by
  induction h with
  | refl => exact ⟨_, tracks_start n rb⟩
  | tail _ hs ih =>
    obtain ⟨l, hl⟩ := ih
    exact hl.step hs

theorem Tracks.recovers (h : Tracks s l) (ho : s.wal.isOpen = false) :
    (s.wal.openListed .never).2 = .ok (Wal.verify s.wal.dir, records l.dir) := by
  rw [h.listable.openListed_eq]
  have hu := h.stands.unopened h.readable ho
  have hrep : l.dir.map WalLog.repair = l.dir :=
    OrderedMap.ext_entries (map_repair_right hu.files.files)
  rw [open_render hu.files hu.shape, open_snd, hrep]

theorem Tracks.durable (h : Tracks s l) : Wal.Life.Durable Wal.Life.Fits s := by
  refine ⟨fun ho => ⟨_, _, h.recovers ho, h.increasing, h.suffix, fun r hr hw => ?_⟩,
    fun s' hc => (h.crashes hc).2⟩
  have hu := h.stands.unopened h.readable ho
  rw [← durableRecords_of_sealed hu.stable]
  exact h.fsynced r hr hw

end

namespace Wal
open Life

/-- The log is durable over every run in which numbers and names do not run out. -/
theorem durable_of_reachable (n rb : ℕ) {s : Life}
    (h : Relation.ReflTransGen (Step Fits) (start n rb) s) : Durable Fits s := by
  obtain ⟨l, hl⟩ := exists_tracks h
  exact hl.durable

theorem durable_after_append :
    Durable Fits (((start 2 64).observe ((start 2 64).wal.openListed .never).1).append
      (.put [0x61] [0x62])) := by
  refine durable_of_reachable 2 64 (.tail (.single (.open _ rfl)) (.append _ _ ⟨?_, ?_, ?_⟩))
  · decide
  · show 0 + 1 < 2 ^ 64
    norm_num
  · intro _
    show 1 + 1 < 10 ^ 11
    decide

end Wal

/-! ## Past the last number and the last name -/

/-- The log after an accepted append of `q`. -/
def appendedTo (q : Wal.Request) (l : Wal Record) : Wal Record :=
  let r := q.record ((l.lastSeqno + 1) % 2 ^ 64)
  WalLog.appendRecord r (if l.mustRoll r then WalLog.rollSegment l else l)

section
variable {s : Wal.Life} {l : Wal Record} {q : Wal.Request}

theorem append_accepted (hs : s.wal = render l) (hl : Live l) (ho : l.isOpen = true)
    (hq : q.Accepted) :
    (s.append q).wal = render (appendedTo q l) ∧ Live (appendedTo q l) ∧
      (appendedTo q l).isOpen = true ∧
      (appendedTo q l).lastSeqno = (l.lastSeqno + 1) % 2 ^ 64 ∧
      records (appendedTo q l).dir = records l.dir ++ [q.record ((l.lastSeqno + 1) % 2 ^ 64)] := by
  obtain ⟨pre, f, he, -⟩ := id hl
  have hcheck : Wal.checkAppend l.isOpen q.key q.value = .ok () := ho ▸ hq.check
  have hform : appendAs ((l.lastSeqno + 1) % 2 ^ 64) q.isDel q.key q.value l =
      (appendedTo q l, .ok ((l.lastSeqno + 1) % 2 ^ 64)) := by
    rw [appendAs, hcheck]
    rfl
  obtain ⟨-, hlive, hrec, hopen, hlast⟩ :=
    appendAs_ok hl q.isDel hcheck ((l.lastSeqno + 1) % 2 ^ 64)
  rw [hform] at hlive hrec hopen hlast
  refine ⟨?_, hlive, hopen.trans ho, hlast, hrec⟩
  rw [Wal.Life.append, hs, Wal.request_eq, append_render he, hform]
  rfl

/-- What a closed log replays is what its listed segments hold. -/
theorem Wal.Life.Durable.fsynced_replayed {admits : Wal.Life → Wal.Call → Prop}
    (h : Wal.Life.Durable admits s) (ho : s.wal.isOpen = false) (hw : s.watermarks = [])
    {r : Record} (hr : r ∈ s.fsynced) : r ∈ Wal.replayed (FileNames.listed s.wal.dir) := by
  obtain ⟨report, rs, hopen, -, -, hall⟩ := h.1 ho
  have hopen' := Wal.open_never { s.wal with dir := FileNames.listed s.wal.dir }
  obtain ⟨-, rfl⟩ := Prod.mk.inj (Except.ok.inj (hopen.symm.trans hopen'))
  exact hall r hr (by simp [hw])

/-! ### The segment past the last name -/

/-- Any number of rolls of an empty log. -/
theorem exists_run_roll (k : ℕ) :
    ∃ s l, Relation.ReflTransGen (Wal.Life.Step Wal.Life.UnderCap) (Wal.Life.start 1 64) s ∧
      s.wal = render l ∧ Live l ∧ l.isOpen = true ∧ l.activeId = k + 1 ∧ records l.dir = [] ∧
      s.watermarks = [] := by
  induction k with
  | zero =>
    obtain ⟨l, hl, hlive, ho, hnil⟩ := fresh_render 1 64
    have hid : l.activeId = 1 := (congrArg Wal.activeId hl).symm
    exact ⟨_, l, .single (.open _ rfl), hl, hlive, ho, hid, hnil, rfl⟩
  | succ k ih =>
    obtain ⟨s, l, hrun, hs, hl, ho, hid, hnil, hw⟩ := ih
    obtain ⟨pre, f, he, -⟩ := id hl
    have hroll : (s.wal.roll .never).1 = render (WalLog.rollSegment l) := by
      rw [hs, roll_render he, WalLog.roll, ho]
      rfl
    refine ⟨_, WalLog.rollSegment l, hrun.tail (.roll s trivial), hroll, hl.rollSegment, rfl,
      by rw [rollSegment_activeId, hid], by rw [records_rollSegment hl, hnil], ?_⟩
    exact hw

/-- Nothing is replayed when the only segment with records is one whose name is cut. -/
theorem replayed_listed_of_cut {pre f} (he : l.Ends pre f) (hid : 10 ^ 11 ≤ l.activeId)
    (hempty : ∀ p ∈ pre, p.2.data = []) :
    Wal.replayed (FileNames.listed (render l).dir) = [] := by
  refine List.flatMap_eq_nil_iff.mpr fun p hp => ?_
  obtain ⟨hmem, hname⟩ := List.mem_filter.mp hp
  rw [ends_render he] at hmem
  rcases List.mem_append.mp hmem with hmem | hmem
  · obtain ⟨p', hp', rfl⟩ := List.mem_map.mp hmem
    have hdata : (renderFile p'.2).data = segmentData [] := congrArg segmentData (hempty p' hp')
    rw [hdata]
    rfl
  · obtain rfl := List.mem_singleton.mp hmem
    dsimp only at hname
    rw [render_activeId, FileNames.numberOf_segmentName_of_le hid] at hname
    cases hname

/-- The first record of a log, in a segment whose name is cut. -/
theorem replayed_listed_appendedTo (hl : Live l) (ho : l.isOpen = true)
    (hnil : records l.dir = []) (hid : 10 ^ 11 ≤ l.activeId) :
    Wal.replayed (FileNames.listed (render (appendedTo q l).close).dir) = [] := by
  set r := q.record ((l.lastSeqno + 1) % 2 ^ 64) with hr
  -- the segment that takes the record: the active one or the one after it
  obtain ⟨l₀, hl₀, ho₀, hnil₀, hid₀, hto⟩ : ∃ l₀, Live l₀ ∧ l₀.isOpen = true ∧
      records l₀.dir = [] ∧ 10 ^ 11 ≤ l₀.activeId ∧
      appendedTo q l = WalLog.appendRecord r l₀ := by
    by_cases hroll : l.mustRoll r
    · exact ⟨_, hl.rollSegment, rfl, (records_rollSegment hl).trans hnil, hid.trans (Nat.le_succ _),
        by rw [appendedTo, ← hr, if_pos hroll]⟩
    · exact ⟨l, hl, ho, hnil, hid, by rw [appendedTo, ← hr, if_neg hroll]⟩
  obtain ⟨pre, f, he, -⟩ := hl₀
  have hempty : ∀ p ∈ pre, p.2.data = [] := by
    rw [records_of_ends he] at hnil₀
    exact List.flatMap_eq_nil_iff.mp (List.append_eq_nil_iff.mp hnil₀).1
  have hclosed : (appendedTo q l).close = (WalLog.appendRecord r l₀).sync.closeFile := by
    rw [hto, Wal.close, if_pos ((appendRecord_isOpen r l₀).trans ho₀)]
  have hends : (WalLog.appendRecord r l₀).sync.closeFile.Ends pre (appended l₀ r f).sync :=
    (ends_appendRecord he r).sync
  rw [hclosed]
  exact replayed_listed_of_cut hends (hid₀.trans (appendRecord_activeId r l₀).ge) hempty

theorem watermarks_append : (s.append q).watermarks = s.watermarks := by
  rw [Wal.Life.append]
  rcases s.wal.request .never q with ⟨w, e | n⟩ <;> rfl

/-- What is on stable storage when the log is closed behind an append. -/
theorem mem_fsynced_close (hs : s.wal = render l) (hl : Live l) (ho : l.isOpen = true)
    (hq : q.Accepted) (hcap : q.payloadLen ≤ kMaxPayload) (hnil : records l.dir = []) :
    ∃ r, r ∈ ((s.append q).observe (s.append q).wal.close).fsynced := by
  obtain ⟨hs', hl', ho', -, hrec⟩ := append_accepted hs hl ho hq
  rw [hnil, List.nil_append] at hrec
  obtain ⟨hsealed, hclose⟩ := hl'.close ho'
  obtain ⟨pre, f, he, -⟩ := hl'
  have hread : ∀ r ∈ records (appendedTo q l).close.dir, Readable r := by
    rw [hclose, hrec]
    intro r hr
    obtain rfl := List.mem_singleton.mp hr
    exact readable_record (Nat.mod_lt _ (by norm_num)) hcap
  refine ⟨q.record ((l.lastSeqno + 1) % 2 ^ 64), List.mem_append_right _ ?_⟩
  rw [hs', close_render he]
  show _ ∈ Wal.syncedRecords ((appendedTo q l).close.dir.map renderFile)
  rw [syncedRecords_render hread, durableRecords_of_sealed hsealed, hclose, hrec]
  exact List.mem_singleton.mpr rfl

end

namespace Wal
open Life

/-- Segment number 10^11 is not listed, and the fsynced record in it not replayed. -/
theorem not_durable_of_cutName :
    ¬∀ (n rb : ℕ) (s : Life), Relation.ReflTransGen (Step UnderCap) (start n rb) s →
      Durable UnderCap s := by
  intro h
  have hq : (Request.put [0x61] [0x62]).Accepted := by
    simp [Request.Accepted, Request.key, Request.value, kMaxPayload]
  have hcap : (Call.append .never (.put [0x61] [0x62])).Fits := by decide
  obtain ⟨s, l, hrun, hs, hl, ho, hid, hnil, hw⟩ := exists_run_roll (10 ^ 11 - 1)
  obtain ⟨hs', hl', ho', -⟩ := append_accepted hs hl ho hq
  obtain ⟨pre, f, he, -⟩ := hl'
  have hwal : (s.append (.put [0x61] [0x62])).wal.close =
      render (appendedTo (.put [0x61] [0x62]) l).close := by rw [hs', close_render he]
  have hshut : (s.append (.put [0x61] [0x62])).wal.close.isOpen = false := by
    rw [hwal, render_isOpen, Wal.close, if_pos ho']
    rfl
  obtain ⟨r, hr⟩ := mem_fsynced_close hs hl ho hq hcap hnil
  have hdurable := h 1 64 _ ((hrun.tail (.append s _ hcap)).tail (.close _))
  have hreplayed := hdurable.fsynced_replayed hshut (watermarks_append.trans hw) hr
  have hnone := replayed_listed_appendedTo (q := .put [0x61] [0x62]) hl ho hnil
    (by omega : 10 ^ 11 ≤ l.activeId)
  rw [← hwal] at hnone
  rw [show ((s.append (.put [0x61] [0x62])).observe
    (s.append (.put [0x61] [0x62])).wal.close).wal = (s.append (.put [0x61] [0x62])).wal.close
    from rfl, hnone] at hreplayed
  cases hreplayed

end Wal

/-! ### The record past the last number -/

/-- The segments that `k` records of 26 bytes fill when they may grow to 2^64 - 1 bytes. -/
structure Filled (k : ℕ) (l : Wal Record) : Prop where
  limit : l.rollBytes = 2 ^ 64 - 1
  first : 1 ≤ l.activeId
  bytes : (l.activeId - 1) * (2 ^ 64 - 34) + l.activeBytes ≤ 8 + 26 * k

theorem Filled.activeId_lt {l : Wal Record} {k : ℕ} (h : Filled k l) (hk : k ≤ 2 ^ 64) :
    l.activeId + 1 < 10 ^ 11 := by
  have hbytes := h.bytes
  omega

theorem rollSegment_activeBytes {l : Wal Record} (hl : Live l) :
    (WalLog.rollSegment l).activeBytes = kHeaderSize := by
  obtain ⟨pre, f, he, -⟩ := hl
  have hclosed : (l.onActive (·.sync)).closeFile.Ends pre f.sync := he.onActive (·.sync)
  have hnew := hclosed.openFile.activeFile
  exact congrArg (fun f : DurableFile Record => segmentBytes f.data) hnew

theorem appendRecord_rollBytes (r : Record) (l : Wal Record) :
    (WalLog.appendRecord r l).rollBytes = l.rollBytes := by
  show (syncPolicy (WalLog.writeRecord r l)).rollBytes = _
  rw [syncPolicy_writeRecord]
  split <;> rfl

theorem rollSegment_rollBytes (l : Wal Record) :
    (WalLog.rollSegment l).rollBytes = l.rollBytes := rfl

/-- A segment is left when there is no room for one more record. -/
theorem fill_step {a b c k : ℕ} (hroom : c + 34 ≤ b + 26) (h : a * c + b ≤ 8 + 26 * k) :
    (a + 1) * c + (8 + 26) ≤ 8 + 26 * (k + 1) := by
  rw [Nat.add_mul]
  omega

theorem Filled.appendedTo {l : Wal Record} {k : ℕ} (h : Filled k l) (hl : Live l) :
    Filled (k + 1) (appendedTo (.put [0x61] []) l) := by
  have hbytes := h.bytes
  have hfirst := h.first
  set r := (Wal.Request.put [0x61] []).record ((l.lastSeqno + 1) % 2 ^ 64) with hr
  have hsize : kFrameOverhead + payloadSize r = 26 := rfl
  rw [LsmKv.appendedTo, ← hr]
  by_cases hroll : l.mustRoll r
  · have hfull : l.rollBytes < l.activeBytes + 26 := by
      rw [Wal.mustRoll, hsize, Bool.and_eq_true] at hroll
      exact of_decide_eq_true hroll.2
    rw [h.limit] at hfull
    rw [if_pos hroll]
    refine ⟨?_, ?_, ?_⟩
    · rw [appendRecord_rollBytes, rollSegment_rollBytes]
      exact h.limit
    · rw [appendRecord_activeId, rollSegment_activeId]
      exact Nat.le_add_left 1 _
    · have hactive : (WalLog.rollSegment l).activeBytes = 8 := rollSegment_activeBytes hl
      have hroom : 2 ^ 64 - 34 + 34 ≤ l.activeBytes + 26 := by omega
      obtain ⟨a, ha⟩ := Nat.exists_eq_add_of_le' hfirst
      simp only [ha, Nat.add_sub_cancel] at hbytes
      simp only [appendRecord_activeId, appendRecord_activeBytes, rollSegment_activeId, hactive,
        hsize, ha, Nat.add_sub_cancel]
      exact fill_step hroom hbytes
  · rw [if_neg hroll]
    refine ⟨(appendRecord_rollBytes r l).trans h.limit, ?_, ?_⟩
    · rwa [appendRecord_activeId]
    · rw [appendRecord_activeId, appendRecord_activeBytes, hsize]
      omega

namespace Wal
open Life

theorem listable_append {s : Life} {q : Request} (h : s.wal.Listable)
    (hname : s.HasName (.append .never q)) : (s.append q).wal.Listable := by
  have hrequest := h.request .never hname
  rw [Life.append]
  rcases hres : s.wal.request .never q with ⟨w, e | n⟩ <;> rwa [hres] at hrequest

/-- What the names leave room for. -/
def Life.UnderNames (s : Life) (c : Call) : Prop := s.UnderCap c ∧ s.HasName c

/-- Any number of appends that the counter has numbers for. -/
theorem exists_run_append {k : ℕ} (hk : k < 2 ^ 64) :
    ∃ s l, Relation.ReflTransGen (Step UnderNames) (start 1 (2 ^ 64 - 1)) s ∧
      s.wal.Listable ∧ s.wal = render l ∧ Live l ∧ l.isOpen = true ∧ Filled k l ∧
      l.lastSeqno = k ∧ (records l.dir).length = k ∧ ∀ r ∈ records l.dir, Readable r := by
  have hq : (Request.put [0x61] []).Accepted := by
    simp [Request.Accepted, Request.key, Request.value, kMaxPayload]
  have hcap : (Call.append .never (.put [0x61] [])).Fits := by decide
  induction k with
  | zero =>
    obtain ⟨l, hl, hlive, ho, hnil⟩ := fresh_render 1 (2 ^ 64 - 1)
    have hfilled : Filled 0 l := by
      have hlimit : l.rollBytes = 2 ^ 64 - 1 := (congrArg Wal.rollBytes hl).symm
      have hid : l.activeId = 1 := (congrArg Wal.activeId hl).symm
      have hbytes : l.activeBytes = 8 := (congrArg Wal.activeBytes hl).symm
      exact ⟨hlimit, hid.ge, by rw [hid, hbytes]; rfl⟩
    have hlast : l.lastSeqno = 0 := (congrArg Wal.lastSeqno hl).symm
    have hlist : (start 1 (2 ^ 64 - 1)).wal.Listable :=
      ⟨FileNames.listable_empty, Nat.zero_lt_succ _⟩
    exact ⟨_, l, .single (.open _ rfl), hlist.open .never, hl, hlive, ho, hfilled, hlast,
      by rw [hnil]; rfl, by simp [hnil]⟩
  | succ k ih =>
    obtain ⟨s, l, hrun, hlist, hs, hl, ho, hfilled, hlast, hlen, hread⟩ := ih (by omega)
    have hname : s.HasName (.append .never (.put [0x61] [])) := fun _ => by
      rw [hs]
      exact hfilled.activeId_lt (by omega)
    obtain ⟨hs', hl', ho', hlast', hrec⟩ := append_accepted hs hl ho hq
    rw [hlast, Nat.mod_eq_of_lt hk] at hlast' hrec
    refine ⟨_, _, hrun.tail (.append s _ ⟨hcap, hname⟩), listable_append hlist hname, hs', hl', ho',
      hfilled.appendedTo hl, hlast', ?_, fun r hr => ?_⟩
    · rw [hrec, List.length_append, hlen, List.length_singleton]
    · rw [hrec] at hr
      rcases List.mem_append.mp hr with hr | hr
      · exact hread r hr
      · obtain rfl := List.mem_singleton.mp hr
        exact readable_record hk hcap

/-- Where no name is cut, the record number 2^64 of a run still gets the number 0. -/
theorem not_durable_of_wrap :
    ¬∀ (n rb : ℕ) (s : Life), Relation.ReflTransGen (Step UnderNames) (start n rb) s →
      Durable UnderNames s := by
  intro h
  have hq : (Request.put [0x61] []).Accepted := by
    simp [Request.Accepted, Request.key, Request.value, kMaxPayload]
  have hcap : (Call.append .never (.put [0x61] [])).Fits := by decide
  obtain ⟨s, l, hrun, hlist, hs, hl, ho, hfilled, hlast, hlen, hread⟩ :=
    exists_run_append (Nat.sub_lt (by norm_num) Nat.one_pos : 2 ^ 64 - 1 < 2 ^ 64)
  have hname : s.HasName (.append .never (.put [0x61] [])) := fun _ => by
    rw [hs]
    exact hfilled.activeId_lt (Nat.sub_le _ _)
  obtain ⟨hs', hl', ho', -, hrec⟩ := append_accepted hs hl ho hq
  have hlist' : (s.append (.put [0x61] [])).wal.close.Listable :=
    (listable_append hlist hname).close
  have hzero : (2 ^ 64 - 1 + 1) % 2 ^ 64 = 0 := by norm_num
  rw [hlast, hzero] at hrec
  obtain ⟨hsealed, hclose⟩ := hl'.close ho'
  obtain ⟨pre, f, he, -⟩ := hl'
  have hwal : (s.append (.put [0x61] [])).wal.close =
      render (appendedTo (.put [0x61] []) l).close := by rw [hs', close_render he]
  have hshut : (s.append (.put [0x61] [])).wal.close.isOpen = false := by
    rw [hwal, render_isOpen, Wal.close, if_pos ho']
    rfl
  have hread' : ∀ r ∈ records (appendedTo (.put [0x61] []) l).close.dir, Readable r := by
    rw [hclose, hrec]
    intro r hr
    rcases List.mem_append.mp hr with hr | hr
    · exact hread r hr
    · obtain rfl := List.mem_singleton.mp hr
      exact readable_record (by norm_num) hcap
  obtain ⟨report, rs, hopen, hinc, -⟩ :=
    (h 1 _ _ ((hrun.tail (.append s _ ⟨hcap, hname⟩)).tail (.close _))).1 hshut
  have hrs : rs = records l.dir ++ [(Request.put [0x61] []).record 0] := by
    have hreplayed := open_never (s.append (.put [0x61] [])).wal.close
    rw [← hlist'.openListed_eq] at hreplayed
    obtain ⟨-, rfl⟩ := Prod.mk.inj (Except.ok.inj (hopen.symm.trans hreplayed))
    rw [hwal]
    exact (replayed_render hread').trans (hclose.trans hrec)
  obtain ⟨r, hr⟩ := List.exists_mem_of_length_pos (l := records l.dir) (by omega)
  rw [hrs] at hinc
  exact absurd ((List.pairwise_append.mp hinc).2.2 r hr _ List.mem_cons_self) (Nat.not_lt_zero _)

end Wal
end LsmKv
