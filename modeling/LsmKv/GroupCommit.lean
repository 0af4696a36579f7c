import LsmKv.CrashRecovery

/-!
# Crashes between two syncs

With `wal_fsync_every_n` above one, acknowledged records wait in the newest segment for the next
sync. They are the last ones, and all of them are in the active memtable: a rotation rolls the
log, and a roll syncs it. So what a crash takes is never missed by a table.
-/

namespace LsmKv
open Sst (TableMeta)
open WalFormat OrderedMap

/-! ## What waits for a sync -/

/-- What the newest segment holds and a crash may take. -/
def Wal.unsynced (w : Wal Record) : List Record := w.activeFile.data.drop w.activeFile.synced

section
variable {w : Wal Record} {dir : OrderedMap ℕ (DurableFile Record)}

theorem records_eq_unsynced (h : WalLog.Live w) :
    WalLog.records w.dir = WalLog.durableRecords w.dir ++ w.unsynced := by
  obtain ⟨pre, f, hends, hpre⟩ := h
  rw [WalLog.records_of_ends hends, durableRecords_snoc hends hpre, Wal.unsynced,
    hends.activeFile, List.append_assoc, List.take_append_drop]

theorem unsynced_rollSegment (h : WalLog.Live w) : (WalLog.rollSegment w).unsynced = [] := by
  obtain ⟨pre, f, hends, -⟩ := h
  rw [Wal.unsynced, (WalLog.ends_rollSegment hends).activeFile]
  rfl

theorem unsynced_writeRecord (r : Record) (w : Wal Record) :
    (WalLog.writeRecord r w).unsynced = w.unsynced ++ [r] := by
  show (w.onActive (·.append [r])).activeFile.data.drop
    (w.onActive (·.append [r])).activeFile.synced = _
  rw [Wal.activeFile_onActive]
  exact List.drop_append_of_le_length w.activeFile.synced_le

theorem unsynced_sync (w : Wal Record) : w.sync.unsynced = [] := by
  show ((w.onActive DurableFile.sync).activeFile.data.drop
    (w.onActive DurableFile.sync).activeFile.synced) = _
  rw [Wal.activeFile_onActive]
  exact List.drop_length

theorem unsynced_syncPolicy (w : Wal Record) :
    (WalLog.syncPolicy w).unsynced <:+ w.unsynced := by
  rw [WalLog.syncPolicy]
  split
  · exact unsynced_sync w ▸ List.nil_suffix
  · exact List.suffix_refl _

/-- The active segment is not removed. -/
theorem unsynced_removeStep (n : ℕ) (w : Wal Record) (id : ℕ) :
    (w.removeStep n id).unsynced = w.unsynced := by
  rw [Wal.removeStep]
  split
  · rename_i hcovered
    have hne : id ≠ w.activeId := by
      rintro rfl
      simp [Wal.covered] at hcovered
    have hfile : ((w.dir.erase id).find? w.activeId).getD .new = w.activeFile := by
      rw [find?_erase, if_neg hne]
      rfl
    show List.drop (((w.dir.erase id).find? w.activeId).getD .new).synced
      (((w.dir.erase id).find? w.activeId).getD .new).data = _
    rw [hfile]
    rfl
  · rfl

theorem length_unsynced (h : WalLog.Intact w) : w.unsynced.length ≤ w.appendsSinceSync := by
  obtain ⟨pre, f, hends, -, hlag⟩ := h.live
  rw [Wal.unsynced, hends.activeFile, List.length_drop]
  omega

/-- A crash takes an end of what waits. -/
theorem Left.exists_lost (h : Left w.dir dir) (hlive : WalLog.Live w) :
    ∃ lost, WalLog.records w.dir = WalLog.records dir ++ lost ∧ lost <:+ w.unsynced := by
  obtain ⟨lost, hlost⟩ := h.kept
  obtain ⟨more, hmore⟩ := h.durable
  refine ⟨lost, hlost.symm, more, ?_⟩
  rw [records_eq_unsynced hlive, ← hmore, List.append_assoc] at hlost
  exact List.append_cancel_left hlost

end

/-! ## The log under the writer's hands -/

/-- The mutation that the log has and no memtable. -/
def Writer.pending : Writer → List Record
  | .written r | .logged r => [r]
  | .idle | .stalled .. | .admitted .. | .numbered _ | .applied _ => []

/-- What the log holds of the mutations `A` and the pending one, and how far it may be behind. -/
structure Writer.Logs (wr : Writer) (w : Wal Record) (A rest : List Record) : Prop where
  live : WalLog.Live w
  ascending : Ascending (A ++ wr.pending)
  suffix : WalLog.records w.dir <:+ A ++ wr.pending
  rest : rest ++ wr.pending <:+ WalLog.records w.dir
  lag : w.unsynced.length < w.fsyncEveryN + wr.pending.length

section
variable {w : Wal Record} {A rest q : List Record}

theorem Keeps.lag (h : Keeps w A rest) : w.unsynced.length < w.fsyncEveryN :=
  (length_unsynced h.intact).trans_lt h.intact.lag

theorem Keeps.logs (h : Keeps w A rest) {wr : Writer} (hp : wr.pending = []) :
    wr.Logs w A rest := by
  refine ⟨h.intact.toLive, ?_, ?_, ?_, h.lag.trans_le (Nat.le_add_right _ _)⟩ <;>
    rw [hp, List.append_nil]
  · exact h.ascending
  · exact h.suffix
  · exact h.rest

/-- Where the record is written, synced or not. -/
theorem Keeps.logs_written (h : Keeps w A rest) {r : Record} (hr : r.seqno = w.lastSeqno + 1) :
    (Writer.written r).Logs (WalLog.writeRecord r w) A rest := by
  have hlive := h.intact.toLive
  have happend := h.append hr
  have hsame : WalLog.records (WalLog.writeRecord r w).dir =
      WalLog.records (WalLog.appendRecord r w).dir :=
    (records_writeRecord hlive r).trans (WalLog.records_appendRecord hlive r).symm
  obtain ⟨pre, f, hends, hpre⟩ := hlive
  refine ⟨⟨pre, _, WalLog.ends_writeRecord hends r, hpre⟩, happend.ascending, ?_, ?_, ?_⟩
  · rw [hsame]
    exact happend.suffix
  · rw [hsame]
    exact happend.rest
  · rw [unsynced_writeRecord, List.length_append]
    exact Nat.add_lt_add_right h.lag _

theorem Writer.Sound.logs {wr : Writer} (h : wr.Sound w A rest q) : wr.Logs w A rest := by
  cases wr with
  | idle | stalled del key value | admitted del key value => exact Keeps.logs h rfl
  | numbered r => exact h.1.logs rfl
  | written r =>
    obtain ⟨l₀, hkeeps, hr, rfl⟩ := h
    exact hkeeps.logs_written hr
  | logged r =>
    have hkeeps : Keeps w (A ++ [r]) (rest ++ [r]) := h
    exact ⟨hkeeps.intact.toLive, hkeeps.ascending, hkeeps.suffix, hkeeps.rest,
      hkeeps.lag.trans_le (Nat.le_add_right _ _)⟩
  | applied r => exact h.1.logs rfl

/-- What is left of the log when an end of the mutations in memtables is lost. -/
theorem Writer.Logs.left {wr : Writer} (h : wr.Logs w A rest)
    {dir : OrderedMap ℕ (DurableFile Record)} (hleft : Left w.dir dir)
    (hunsynced : w.unsynced <:+ rest ++ wr.pending) :
    ∃ lost kept, rest ++ wr.pending = kept ++ lost ∧ lost <:+ w.unsynced ∧
      ∀ L, L ++ lost = A ++ wr.pending → Spans dir L kept := by
  obtain ⟨lost, hlost, hsuffix⟩ := hleft.exists_lost h.live
  obtain ⟨kept, hkept⟩ := hsuffix.trans hunsynced
  refine ⟨lost, kept, hkept.symm, hsuffix, fun L hL => ⟨hleft.stable, ?_, ?_, ?_⟩⟩
  · have hascending := h.ascending
    rw [← hL] at hascending
    exact (List.pairwise_append.mp hascending).1
  · have hrecords := h.suffix
    rw [hlost, ← hL] at hrecords
    exact ((List.suffix_append_inj_of_length_eq rfl).mp hrecords).1
  · have hrest := h.rest
    rw [hlost, ← hkept] at hrest
    exact ((List.suffix_append_inj_of_length_eq rfl).mp hrest).1

end

/-! ## The steps -/

/-- A step of the writer. -/
def Action.writes : Action → Bool
  | .submit .. | .resume | .number | .write | .sync | .apply | .rotate => true
  | .flush | .compact _ | .merge _ | .name | .temp | .rename _ | .publish | .watermark | .remove
  | .nextSegment | .nextInput | .unlink | .load _ | .consult _ => false

namespace Threads

variable {s s' : Threads} {a : Action}

theorem unsynced_nextSegment (hs : s.nextSegment = some s') :
    s'.writer = s.writer ∧ s'.engine.wal.unsynced = s.engine.wal.unsynced := by
  rw [nextSegment] at hs
  split at hs
  · obtain rfl := Option.some.inj hs
    exact ⟨rfl, rfl⟩
  · obtain rfl := Option.some.inj hs
    exact ⟨rfl, unsynced_removeStep _ _ _⟩
  · cases hs

theorem writer_publish (hs : s.publish = some s') : s'.writer = s.writer := by
  obtain ⟨_, _, _, _, _, _, -, -, -, rfl⟩ := publish_cases hs
  rfl

/-- The other threads leave the writer alone, and what waits for a sync. -/
theorem frame_of_not_writes (ha : a.writes = false) (hs : s.step a = some s') :
    s'.writer = s.writer ∧ s'.engine.wal.unsynced = s.engine.wal.unsynced := by
  cases a with
  | publish => exact ⟨writer_publish hs, congrArg Wal.unsynced (wal_publish hs)⟩
  | nextSegment => exact unsynced_nextSegment hs
  | submit | resume | number | write | sync | apply | rotate => cases ha
  | flush | compact | merge | name | temp | rename | watermark | remove | nextInput | unlink
  | load | consult =>
    simp only [step, flush, compact, merge, name, temp, rename, watermark, remove, nextInput,
      unlink, load, consult] at hs
    repeat' split at hs
    all_goals first
      | (obtain rfl := Option.some.inj hs
         exact ⟨rfl, rfl⟩)
      | cases hs

section
variable {config : Config} {ok : Bytes → Bytes → Prop} {B : List Record} {ps : List (List Record)}
  {q : List Record} {D : List LiveTable} {l : Wal Record} {d : Disk}

/-- Flushes and compactions take from the queue, not from the active memtable. -/
theorem Sound.step_of_not_writes (h : Sound config ok s B ps q D l)
    (hok : ∀ key value, ok key value → config.isUtf8 key = true) (ha : a.writes = false)
    (hs : s.step a = some s') : ∃ B' ps' D' l', Sound config ok s' B' ps' q D' l' := by
  cases a with
  | submit | resume | number | write | sync | apply | rotate => cases ha
  | flush => exact ⟨_, _, _, _, h.flush hs⟩
  | compact inputs => exact ⟨_, _, _, _, h.compact hs⟩
  | merge now => exact ⟨_, _, _, _, h.merge hs⟩
  | name => exact ⟨_, _, _, _, h.name hs⟩
  | temp => exact ⟨_, _, _, _, h.temp hs⟩
  | rename now => exact ⟨_, _, _, _, h.rename hs⟩
  | publish =>
    obtain ⟨B', ps', D', h'⟩ := h.publish hok hs
    exact ⟨B', ps', D', _, h'⟩
  | watermark => exact ⟨_, _, _, _, h.watermark hs⟩
  | remove => exact ⟨_, _, _, _, h.remove hs⟩
  | nextSegment => exact ⟨_, _, _, h.nextSegment hs⟩
  | nextInput => exact ⟨_, _, _, _, h.nextInput hs⟩
  | unlink => exact ⟨_, _, _, _, h.unlink hs⟩
  | load key => exact ⟨_, _, _, _, h.load hs⟩
  | consult i => exact ⟨_, _, _, _, h.consult hs⟩

/-- What waits for a sync is in the active memtable, or on its way there. -/
def Behind (config : Config) (ok : Bytes → Bytes → Prop) (s : Threads) (q : List Record) : Prop :=
  s.engine.wal.unsynced <:+ q ++ s.writer.pending ∧
    ∃ B ps D l, Sound config ok s B ps q D l

theorem Sound.live (h : Sound config ok s B ps q D l) : WalLog.Live s.engine.wal :=
  h.shown.logs.live

/-- Before the record is numbered the log is left alone. -/
theorem Behind.admit (h : s.Behind config ok q) {waits del : Bool} {key value : Bytes}
    (hkey : ok key value) (hs : s.submit waits del key value = some s') :
    s'.Behind config ok q := by
  obtain ⟨hbehind, B, ps, D, l, hsound⟩ := h
  refine ⟨?_, B, ps, D, l, hsound.submit hkey hs⟩
  obtain ⟨e, w, c, gs, A, K, as⟩ := s
  cases w with
  | idle =>
    simp only [Threads.submit] at hs
    repeat' split at hs
    all_goals
      obtain rfl := Option.some.inj hs
      exact hbehind
  | _ => simp [Threads.submit] at hs

theorem Behind.resume (h : s.Behind config ok q) (hs : s.resume = some s') :
    s'.Behind config ok q := by
  obtain ⟨hbehind, B, ps, D, l, hsound⟩ := h
  refine ⟨?_, B, ps, D, l, hsound.resume hs⟩
  obtain ⟨e, w, c, gs, A, K, as⟩ := s
  cases w with
  | stalled del key value =>
    simp only [Threads.resume] at hs
    split at hs
    · obtain rfl := Option.some.inj hs
      exact hbehind
    · cases hs
  | _ => simp [Threads.resume] at hs

theorem Behind.number (h : s.Behind config ok q) (hs : s.number = some s') :
    s'.Behind config ok q := by
  obtain ⟨hbehind, B, ps, D, l, hsound⟩ := h
  obtain ⟨l', hsound'⟩ := hsound.number hs
  refine ⟨?_, B, ps, D, l', hsound'⟩
  have hlive := hsound.live
  obtain ⟨e, w, c, gs, A, K, as⟩ := s
  cases w with
  | admitted del key value =>
    simp only [Threads.number] at hs
    split at hs
    · cases hs
    split at hs
    · obtain rfl := Option.some.inj hs
      exact hbehind
    · obtain rfl := Option.some.inj hs
      show (if _ then WalLog.rollSegment e.wal else e.wal).unsynced <:+ _
      split
      · rw [unsynced_rollSegment hlive]
        exact List.nil_suffix
      · exact hbehind
  | _ => simp [Threads.number] at hs

theorem Behind.write (h : s.Behind config ok q) (hs : s.write = some s') :
    s'.Behind config ok q := by
  obtain ⟨hbehind, B, ps, D, l, hsound⟩ := h
  obtain ⟨l', hsound'⟩ := hsound.write hs
  refine ⟨?_, B, ps, D, l', hsound'⟩
  obtain ⟨e, w, c, gs, A, K, as⟩ := s
  cases w with
  | numbered r =>
    obtain rfl := Option.some.inj hs
    have hbehind : e.wal.unsynced <:+ q ++ [] := hbehind
    rw [List.append_nil] at hbehind
    show (WalLog.writeRecord r e.wal).unsynced <:+ q ++ [r]
    rw [unsynced_writeRecord]
    exact (List.suffix_append_inj_of_length_eq rfl).mpr ⟨hbehind, rfl⟩
  | _ => simp [Threads.write] at hs

theorem Behind.sync (h : s.Behind config ok q) (hs : s.sync = some s') :
    s'.Behind config ok q := by
  obtain ⟨hbehind, B, ps, D, l, hsound⟩ := h
  obtain ⟨l', hsound'⟩ := hsound.sync hs
  refine ⟨?_, B, ps, D, l', hsound'⟩
  obtain ⟨e, w, c, gs, A, K, as⟩ := s
  cases w with
  | written r =>
    obtain rfl := Option.some.inj hs
    exact (unsynced_syncPolicy e.wal).trans hbehind
  | _ => simp [Threads.sync] at hs

theorem Behind.apply (h : s.Behind config ok q) (hs : s.apply = some s') :
    ∃ q', s'.Behind config ok q' := by
  obtain ⟨hbehind, B, ps, D, l, hsound⟩ := h
  obtain ⟨q', hsound'⟩ := hsound.apply hs
  refine ⟨q', ?_, B, ps, D, l, hsound'⟩
  have happlied := hsound.stored.applied
  have happlied' := hsound'.stored.applied
  obtain ⟨e, w, c, gs, A, K, as⟩ := s
  cases w with
  | logged r =>
    obtain rfl := Option.some.inj hs
    dsimp only at happlied happlied'
    rw [happlied, List.append_assoc, List.append_assoc] at happlied'
    obtain rfl : q ++ [r] = q' := List.append_cancel_left (List.append_cancel_left happlied')
    exact (List.append_nil (q ++ [r])).symm ▸ hbehind
  | _ => simp [Threads.apply] at hs

/-- A rotation empties the active memtable and syncs the log. -/
theorem Behind.rotate (h : s.Behind config ok q) (hs : s.rotate = some s') :
    ∃ q', s'.Behind config ok q' := by
  obtain ⟨hbehind, B, ps, D, l, hsound⟩ := h
  obtain ⟨ps', q', l', hsound'⟩ := hsound.rotate hs
  have hlive := hsound.live
  have hopen := hsound.shown
  obtain ⟨e, w, c, gs, A, K, as⟩ := s
  cases w with
  | applied r =>
    simp only [Threads.rotate] at hs
    split at hs
    · rename_i hrotates
      split at hs
      · cases hs
      obtain rfl := Option.some.inj hs
      refine ⟨q', ?_, B, ps', D, l', hsound'⟩
      have hroll : (WalLog.roll e.wal).1 = WalLog.rollSegment e.wal := by
        rw [WalLog.roll, hopen.1.isOpen]
        rfl
      show (e.maybeRotate false).wal.unsynced <:+ _
      rw [maybeRotate_of_rotates hrotates]
      show (WalLog.roll e.wal).1.unsynced <:+ _
      rw [hroll, unsynced_rollSegment hlive]
      exact List.nil_suffix
    · obtain rfl := Option.some.inj hs
      refine ⟨q, hbehind, B, ps, D, l, hsound.settings, hsound.stored, hsound.writer.1,
        hsound.shows, hsound.creator, by simp [inAppend], trivial, hsound.keys, ?_⟩
      exact hsound.acked.trans (List.append_nil _).symm
  | _ => simp [Threads.rotate] at hs

theorem Behind.step (h : s.Behind config ok q)
    (hok : ∀ key value, ok key value → config.isUtf8 key = true) (ha : Brings ok a)
    (hs : s.step a = some s') : ∃ q', s'.Behind config ok q' := by
  cases hwrites : a.writes with
  | false =>
    obtain ⟨hbehind, B, ps, D, l, hsound⟩ := h
    obtain ⟨hwriter, hunsynced⟩ := frame_of_not_writes hwrites hs
    exact ⟨q, by rw [hwriter, hunsynced]; exact hbehind, hsound.step_of_not_writes hok hwrites hs⟩
  | true =>
    cases a with
    | submit waits del key value => exact ⟨q, h.admit ha.1 hs⟩
    | resume => exact ⟨q, h.resume hs⟩
    | number => exact ⟨q, h.number hs⟩
    | write => exact ⟨q, h.write hs⟩
    | sync => exact ⟨q, h.sync hs⟩
    | apply => exact h.apply hs
    | rotate => exact h.rotate hs
    | flush | compact | merge | name | temp | rename | publish | watermark | remove | nextSegment
    | nextInput | unlink | load | consult => cases hwrites

/-! ## What is recalled -/

/-- A pending mutation is one that may come. -/
theorem Sound.brings_pending (h : Sound config ok s B ps q D l) :
    ∀ r ∈ s.writer.pending, ok r.key r.value := by
  have hbrings := h.brings
  intro r hr
  cases hwriter : s.writer with
  | written r' | logged r' =>
    rw [hwriter] at hr hbrings
    obtain rfl := List.mem_singleton.mp hr
    exact hbrings
  | idle | stalled del key value | admitted del key value | numbered r' | applied r' =>
    rw [hwriter] at hr
    cases hr

/-- A log with all of the memtables' mutations, whatever of it waits for a sync. -/
theorem Sound.recalls_of_logs (h : Sound config ok s B ps q D l)
    (hloads : Host.Loads (.up s.engine))
    (hok : ∀ key value, ok key value → kMinPayload + key.length + value.length ≤ kMaxPayload)
    {w : Wal Record} (hlogs : s.writer.Logs w s.applied (ps.flatten ++ q))
    (hbehind : w.unsynced <:+ q ++ s.writer.pending)
    (hleft : Disk.Left { s.engine.disk with wal := w.dir } d) :
    ∃ L lost kept, L ++ lost = s.applied ++ s.writer.pending ∧ lost <:+ w.unsynced ∧
      d.Recalls L B kept D := by
  have hstored := h.stored
  have hmemtables : w.unsynced <:+ ps.flatten ++ q ++ s.writer.pending := by
    rw [List.append_assoc]
    exact hbehind.trans (List.suffix_append _ _)
  obtain ⟨lost, kept, hkept, hlost, hspans⟩ := hlogs.left hleft.log hmemtables
  have hL : B ++ kept ++ lost = s.applied ++ s.writer.pending := by
    rw [List.append_assoc, ← hkept, hstored.applied]
    simp only [List.append_assoc]
  have hfits : ∀ r ∈ B ++ kept, WalLog.Fits r := by
    intro r hr
    have hmem : r ∈ s.applied ++ s.writer.pending := hL ▸ List.mem_append_left _ hr
    rcases List.mem_append.mp hmem with hmem | hmem
    · exact hok r.key r.value (h.keys r hmem)
    · exact hok r.key r.value (h.brings_pending r hmem)
  have hholds : d.Holds D := by
    rw [hleft.rest]
    exact hstored.holds.disk.of_eq rfl hstored.holds.disk.files
  have hdisk : Host.Loads (.shut { s.engine.disk with wal := w.dir }) := hloads.disk
  have hloads := hleft.loads hdisk
  exact ⟨B ++ kept, lost, kept, hL, hlost, rfl, hfits, hspans _ hL, hholds, hstored.newest,
    hstored.reads, hloads⟩

end

/-- What is applied or pending is acknowledged or under way. -/
theorem acked_or_inFlight (s : Threads) (h : s.applied = s.acked ++ s.writer.unacked) :
    s.applied ++ s.writer.pending = s.acked ∨
      ∃ r ∈ s.writer.inFlight, s.applied ++ s.writer.pending = s.acked ++ [r] := by
  rw [h, List.append_assoc]
  cases s.writer with
  | written r | logged r | applied r => exact .inr ⟨r, rfl, rfl⟩
  | idle | stalled del key value | admitted del key value | numbered r =>
    exact .inl (List.append_nil _)

end Threads

theorem eq_nil_of_entries {config : Config} {q : List Record}
    (h : (config.memtable q).entries = 0) : q = [] := by
  rcases q with _ | ⟨r, q⟩
  · rfl
  have hnone : (config.memtable (r :: q)).find r.key = none :=
    find?_eq_none_iff.mpr (by simp [List.length_eq_zero_iff.mp h])
  rw [find_memtable, Option.map_eq_none_iff, lastRecord_eq_none] at hnone
  exact absurd rfl (hnone r List.mem_cons_self)

/-- The number of appends between two syncs, as the log has it. -/
theorem fsyncEveryN_opened {config : Config} {d : Disk} {e : Engine}
    (h : Engine.open config d = .ok e) : e.wal.fsyncEveryN = max 1 config.walFsyncEveryN := by
  obtain rfl := eq_of_open h
  rw [recover_eq]
  refine (fsyncEveryN_open (Engine.loaded config d).wal).trans ?_
  show (if config.walFsyncEveryN = 0 then 1 else config.walFsyncEveryN) = _
  split <;> omega

/-- What is kept through a session, however often the log is synced. -/
def Threads.Lags (config : Config) (s : Threads) : Prop :=
  s.engine.wal.fsyncEveryN = max 1 config.walFsyncEveryN ∧ Host.Loads (.up s.engine) ∧ ∃ q,
    s.Behind config (fun key value => config.isUtf8 key = true ∧
      kMinPayload + key.length + value.length ≤ kMaxPayload) q

theorem Threads.Lags.start {config : Config} {e : Engine}
    (hopen : Engine.open config {} = .ok e) : (start e).Lags config := by
  have hsound := Sound.start (fun key value => config.isUtf8 key = true ∧
    kMinPayload + key.length + value.length ≤ kMaxPayload) hopen
  have hlogs := hsound.shown.logs
  refine ⟨fsyncEveryN_opened hopen, ⟨.of_open hopen, misindexed_open hopen⟩, [], ?_, _, _, _, _,
    hsound⟩
  have hempty : WalLog.records (Threads.start e).engine.wal.dir <:+ [] := hlogs.suffix
  rw [records_eq_unsynced hlogs.live] at hempty
  exact (List.suffix_append _ _).trans hempty

theorem Threads.Lags.run {config : Config} {s s' : Threads} (h : s.Lags config)
    (hrun : Threads.Runs (fun s a => Threads.Brings (fun key value => config.isUtf8 key = true ∧
      kMinPayload + key.length + value.length ≤ kMaxPayload) a ∧ s.Lasting a) s s') :
    s'.Lags config := by
  refine hrun.invariant (fun s s' a hs ha hstep => ?_) h
  obtain ⟨hevery, hloads, q, hbehind⟩ := hs
  exact ⟨(Threads.fsyncEveryN_step hstep).trans hevery, Threads.loads_step hloads ha.2 hstep,
    hbehind.step (fun _ _ hok => hok.1) ha.1 hstep⟩

/-- A session on an empty directory that ends in a crash, and crashes inside `open` after it: the
store opens and has a beginning of the mutations. Of those acknowledged it misses fewer than are
written between two syncs, and none that has left the active memtable. -/
theorem crash_loses_few {config : Config} {e : Engine} (hopen : Engine.open config {} = .ok e)
    {s : Threads}
    (hrun : Threads.Runs (fun s a => Threads.Brings (fun key value => config.isUtf8 key = true ∧
      kMinPayload + key.length + value.length ≤ kMaxPayload) a ∧ s.Lasting a) (.start e) s)
    {d : Disk} (hcrash : Crashed config s.engine.disk d) :
    ∃ e', Engine.open config d = .ok e' ∧
      ∃ L, L <+: s.acked ++ s.writer.inFlight.toList ∧
        s.acked.length < L.length + max 1 config.walFsyncEveryN ∧
        (s.engine.active.entries = 0 → s.acked.length ≤ L.length) ∧
        ∀ key ≠ [], e'.get key = .ok (lastWritten L key) := by
  obtain ⟨hevery, hloads, q, hbehind, B, ps, D, l, hsound⟩ := (Threads.Lags.start hopen).run hrun
  obtain ⟨d₀, hleft, hcrashes⟩ := hcrash
  have hlogs := hsound.shown.logs
  obtain ⟨L, lost, kept, hL, hlost, hrecalls⟩ :=
    hsound.recalls_of_logs hloads (fun _ _ hok => hok.2) hlogs hbehind hleft
  obtain ⟨e', hopen', -, hget⟩ := (hrecalls.crashes hcrashes).open config
  have happlied : s.acked.length ≤ s.applied.length := by
    rw [hsound.acked, List.length_append]
    exact Nat.le_add_right _ _
  have hlength := congrArg List.length hL
  rw [List.length_append, List.length_append] at hlength
  refine ⟨e', hopen', L, ?_, ?_, fun hempty => ?_, hget⟩
  · rcases s.acked_or_inFlight hsound.acked with hall | ⟨r, hr, hall⟩
    · exact (hL.trans hall ▸ List.prefix_append L lost).trans (List.prefix_append _ _)
    · rw [Option.mem_def.mp hr]
      exact hL.trans hall ▸ List.prefix_append L lost
  · have hlag := hlogs.lag
    have hle := hlost.length_le
    omega
  · rw [hsound.stored.active] at hempty
    rw [eq_nil_of_entries hempty] at hbehind
    have hle := hlost.length_le.trans hbehind.length_le
    rw [List.nil_append] at hle
    omega

/-- Every other append is synced. -/
def everyOther : Config := { Config.small 1000 4 1000 with walFsyncEveryN := 2 }

def threePuts : List Action := [
  .submit true false [97] [1], .number, .write, .sync, .apply, .rotate,
  .submit true false [98] [2], .number, .write, .sync, .apply, .rotate,
  .submit true false [99] [3], .number, .write, .sync, .apply, .rotate]

/-- The third put is acknowledged and lost, the first is not. -/
theorem crash_loses_few_threePuts : ∃ s d e,
    (Threads.start (Engine.loaded everyOther {}).recover).performAll threePuts = some s ∧
    s.acked.length = 3 ∧ Crashed everyOther s.engine.disk d ∧
    (WalLog.records d.wal).length = 2 ∧ Engine.open everyOther d = .ok e ∧
    e.get [97] = .ok (some [1]) := by
  have hend : ((Threads.start (Engine.loaded everyOther {}).recover).performAll threePuts).map
      (fun s => decide (s.writer.inFlight = none ∧
        s.acked = [⟨false, [97], [1], 1⟩, ⟨false, [98], [2], 2⟩, ⟨false, [99], [3], 3⟩] ∧
        Left s.engine.wal.dir s.engine.disk.synced.wal ∧
        (WalLog.records s.engine.disk.synced.wal).length = 2)) = some true := by
    decide +kernel
  obtain ⟨s, hs, hend⟩ := Option.map_eq_some_iff.mp hend
  obtain ⟨hflight, hacked, hleft, htwo⟩ := of_decide_eq_true hend
  have hcrash : Crashed everyOther s.engine.disk s.engine.disk.synced := ⟨_, ⟨hleft, rfl⟩, .refl⟩
  obtain ⟨e, hopen, L, hprefix, hlength, -, hget⟩ :=
    crash_loses_few rfl (Threads.runs_performAll (by decide +kernel) hs) hcrash
  refine ⟨s, _, e, hs, congrArg List.length hacked, hcrash, htwo, hopen,
    (hget [97] (by decide)).trans ?_⟩
  rw [hflight, hacked] at hprefix
  rw [hacked] at hlength
  have hL := List.prefix_iff_eq_take.mp hprefix
  have hlong : L.length = 2 ∨ L.length = 3 := by
    have hle := hprefix.length_le
    have hevery : max 1 everyOther.walFsyncEveryN = 2 := rfl
    simp only [List.length_cons, List.length_nil, List.length_append, Option.toList_none] at *
    omega
  rcases hlong with hlong | hlong <;>
  · rw [hlong] at hL
    rw [hL]
    rfl

/-! ## Closing -/

/-- `close` reaches the log once no append and no removal is inside it. The queue stays as it is:
a graceful close has flushed it by then, a fast one leaves it to the log. -/
def Threads.close (s : Threads) : Option Threads :=
  if s.inAppend ∨ s.inRemoval then none else some { s with engine := s.engine.close }

theorem Writer.Sound.isOpen {wr : Writer} {w : Wal Record} {A rest q : List Record}
    (h : wr.Sound w A rest q) : w.isOpen = true := by
  cases wr with
  | idle | stalled del key value | admitted del key value | logged r => exact Keeps.isOpen h
  | numbered r => exact h.1.isOpen
  | written r =>
    obtain ⟨l₀, hkeeps, -, rfl⟩ := h
    exact hkeeps.isOpen
  | applied r => exact h.1.isOpen

theorem Writer.Logs.sync {wr : Writer} {w : Wal Record} {A rest : List Record}
    (h : wr.Logs w A rest) : wr.Logs w.sync A rest ∧ w.sync.unsynced = [] := by
  obtain ⟨pre, f, hends, hpre⟩ := h.live
  have hrecords : WalLog.records w.sync.dir = WalLog.records w.dir := by
    rw [WalLog.records_of_ends hends.sync, WalLog.records_of_ends hends]
    rfl
  have hnone := unsynced_sync w
  refine ⟨⟨⟨pre, _, hends.sync, hpre⟩, h.ascending, hrecords ▸ h.suffix, hrecords ▸ h.rest, ?_⟩,
    hnone⟩
  rw [hnone]
  exact (Nat.zero_le _).trans_lt h.lag

/-- A session that is closed at whatever moment, gracefully or fast: nothing acknowledged is lost,
however seldom the log is synced and whatever comes over the directory then. -/
theorem close_loses_nothing {config : Config} {e : Engine} (hopen : Engine.open config {} = .ok e)
    {s s' : Threads}
    (hrun : Threads.Runs (fun s a => Threads.Brings (fun key value => config.isUtf8 key = true ∧
      kMinPayload + key.length + value.length ≤ kMaxPayload) a ∧ s.Lasting a) (.start e) s)
    (hclose : s.close = some s') {d : Disk} (hcrash : Crashed config s'.engine.disk d) :
    ∃ e', Engine.open config d = .ok e' ∧
      ∃ L, (L = s.acked ∨ ∃ r ∈ s.writer.inFlight, L = s.acked ++ [r]) ∧
        ∀ key ≠ [], e'.get key = .ok (lastWritten L key) := by
  obtain ⟨-, hloads, q, -, B, ps, D, l, hsound⟩ := (Threads.Lags.start hopen).run hrun
  obtain ⟨hlogs, hsynced⟩ := hsound.shown.logs.sync
  have hclosed : s'.engine.disk = { s.engine.disk with wal := s.engine.wal.sync.dir } := by
    rw [Threads.close] at hclose
    split at hclose
    · cases hclose
    · obtain rfl := Option.some.inj hclose
      show s.engine.close.disk = _
      rw [Engine.close, hsound.stored.isOpen, Wal.close, hsound.shown.isOpen]
      rfl
  obtain ⟨d₀, hleft, hcrashes⟩ := hcrash
  rw [hclosed] at hleft
  obtain ⟨L, lost, kept, hL, hlost, hrecalls⟩ := hsound.recalls_of_logs hloads
    (fun _ _ hok => hok.2) hlogs (hsynced ▸ List.nil_suffix) hleft
  obtain ⟨e', hopen', -, hget⟩ := (hrecalls.crashes hcrashes).open config
  rw [hsynced, List.suffix_nil] at hlost
  rw [hlost, List.append_nil] at hL
  subst hL
  exact ⟨e', hopen', _, s.acked_or_inFlight hsound.acked, hget⟩

theorem close_loses_nothing_threePuts : ∃ s s' d e,
    (Threads.start (Engine.loaded everyOther {}).recover).performAll threePuts = some s ∧
    s.close = some s' ∧ Crashed everyOther s'.engine.disk d ∧ Engine.open everyOther d = .ok e ∧
    e.get [99] = .ok (some [3]) := by
  have hend : (((Threads.start (Engine.loaded everyOther {}).recover).performAll threePuts).bind
      (fun s => s.close.map (fun s' => (s, s')))).map (fun p => decide (p.1.writer.inFlight = none ∧
        p.1.acked = [⟨false, [97], [1], 1⟩, ⟨false, [98], [2], 2⟩, ⟨false, [99], [3], 3⟩] ∧
        Left p.2.engine.wal.dir p.2.engine.disk.synced.wal)) = some true := by
    decide +kernel
  obtain ⟨p, hp, hend⟩ := Option.map_eq_some_iff.mp hend
  obtain ⟨s, hs, hp⟩ := Option.bind_eq_some_iff.mp hp
  obtain ⟨s', hclose, rfl⟩ := Option.map_eq_some_iff.mp hp
  obtain ⟨hflight, hacked, hleft⟩ := of_decide_eq_true hend
  have hcrash : Crashed everyOther s'.engine.disk s'.engine.disk.synced := ⟨_, ⟨hleft, rfl⟩, .refl⟩
  obtain ⟨e, hopen, L, hL, hget⟩ :=
    close_loses_nothing rfl (Threads.runs_performAll (by decide +kernel) hs) hclose hcrash
  refine ⟨s, s', _, e, hs, hclose, hcrash, hopen, (hget [99] (by decide)).trans ?_⟩
  rcases hL with rfl | ⟨r, hr, rfl⟩
  · rw [show s.acked = _ from hacked]
    rfl
  · rw [show s.writer.inFlight = none from hflight] at hr
    cases hr

end LsmKv
