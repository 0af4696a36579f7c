import LsmKv.GroupCommit
import Mathlib.Data.List.DropRight

/-!
# Sessions with crashes

Any number of sessions on one directory, each of which may end in a crash inside any of its
calls, and any number of crashes inside `open`. What a crash takes is the end of what was
written: it waits in the newest segment for a sync, and no table has seen it.
-/

namespace LsmKv
open Sst (TableMeta)
open WalFormat OrderedMap

/-! ## Where a crash may come -/

/-- The segment an append writes to, a new one if the record needs it. -/
def WalLog.makeRoom (r : Record) (w : Wal Record) : Wal Record :=
  if w.mustRoll r then WalLog.rollSegment w else w

/-- The logs an append leads through, each with what it holds of the append. -/
def WalLog.appending (r : Record) (w : Wal Record) : List (Wal Record × List Record) :=
  [(makeRoom r w, []), (writeRecord r (makeRoom r w), [r]), (appendRecord r (makeRoom r w), [r])]

namespace Engine

/-- The record that a write appends, once its checks are passed. -/
def nextRecord (del : Bool) (key value : Bytes) (e : Engine) : Record :=
  ⟨del, key, value, e.wal.lastSeqno + 1⟩

/-- The checks of a write and of its append. -/
def checkWrite (key value : Bytes) (e : Engine) : Except Error Unit := do
  e.ensureOpen
  if key = [] then throw ⟨.invalidArgument, "empty key is not allowed"⟩
  e.ensureWriteCapacity
  Wal.checkAppend e.wal.isOpen key value

/-- The directories a write leads through, each with what its log holds of the write. -/
def writing (del : Bool) (key value : Bytes) (e : Engine) : List (Disk × List Record) :=
  match e.checkWrite key value with
  | .error _ => []
  | .ok _ => (WalLog.appending (e.nextRecord del key value) e.wal).map (fun p =>
      ({ e.disk with wal := p.1.dir }, p.2))

/-- `remove_segments_covered` as it goes from segment to segment. -/
def removing (e : Engine) : List Disk :=
  (List.range (e.wal.dir.keys.length + 1)).map (fun n =>
    { e.disk with wal := (e.wal.removeFirst e.manifest.maxSeqno n).dir })

/-- The directories a flush leads through. -/
def flushing (now : ℕ) (e : Engine) : List Disk :=
  match e.immutables.getLast? with
  | none => []
  | some target =>
    { e.disk with temps := e.manifest.nextSstId :: e.temps } :: match e.writeSstable target with
      | .error _ => []
      | .ok (placed, r) => placed.disk :: match placed.publishFlush (r.toMeta now) with
        | (_, .error _) => []
        | (published, .ok _) => published.removing

/-- The deletion of compacted inputs as it goes from table to table. -/
def deleting (removed : List TableMeta) (e : Engine) : List Disk :=
  (List.range (removed.length + 1)).map (fun n =>
    ((removed.take n).foldl (deleteInput []) e).disk)

/-- The directories a compaction leads through. -/
def compacting (inputs : Option (List ℕ)) (now created : ℕ) (e : Engine) : List Disk :=
  match e.ensureOpen with
  | .error _ => []
  | .ok _ => match e.chooseInputs inputs with
    | .error _ | .ok none => []
    | .ok (some ids) => match e.scanInputs ids now with
      | .error _ => []
      | .ok (final, _) =>
        { e.disk with temps := e.manifest.nextSstId :: e.temps } ::
          match e.writeOutput final created with
          | .error _ => []
          | .ok (placed, added) => placed.disk :: match placed.publishCompaction ids added with
            | (_, .error _) => []
            | (published, .ok removed) => published.deleting removed

/-- The directories inside a call, each with what its log holds of the call. -/
def within (e : Engine) : Call → List (Disk × List Record)
  | .put key value => e.writing false key value
  | .remove key => e.writing true key []
  | .flushOne now => (e.flushing now).map (fun d => (d, []))
  | .runCompaction inputs now created => (e.compacting inputs now created).map (fun d => (d, []))

/-- Where a crash may come before, inside and after a call. -/
def during (e : Engine) (c : Call) : List (Disk × List Record) :=
  (e.disk, []) :: e.within c ++ [((e.perform c).disk, (e.accepted c).toList)]

end Engine

/-- How many records of the log are gone. -/
def Disk.lost (d d' : Disk) : ℕ :=
  (WalLog.records d.wal).length - (WalLog.records d'.wal).length

namespace Host

/-- A step of a session, or a crash; with the records written so far, less those a crash takes. -/
inductive Suffers (opens : Config → Prop) (ok : Engine → Call → Prop) :
    Host × List Record → Host × List Record → Prop
  | moves {x y} (h : Moves opens ok x y) : Suffers opens ok x y
  | crash {e c d d' rs added} (hc : ok e c) (hd : (d, added) ∈ e.during c) (hleft : d.Left d') :
    Suffers opens ok (.up e, rs) (.shut d', (rs ++ added).rdrop (d.lost d'))
  | crashOpen {config d d₁ d' rs} (hc : opens config) (h : Opening config d d₁)
    (hleft : d₁.Left d') : Suffers opens ok (.shut d, rs) (.shut d', rs)

/-- Sessions and crashes, and what is left of what was written in them. -/
abbrev Crashing (opens : Config → Prop) (ok : Engine → Call → Prop) :
    Host × List Record → Host × List Record → Prop := Relation.ReflTransGen (Suffers opens ok)

/-- A crash takes fewer acknowledged records than are written between two syncs. -/
def LosesFew (ok : Engine → Call → Prop) : Host → Prop
  | .shut _ => True
  | .up e => ∀ c, ok e c → ∀ p ∈ e.during c, ∀ d, p.1.Left d →
      p.1.lost d < p.2.length + max 1 e.config.walFsyncEveryN

end Host

/-! ## What is known without the last records -/

section
variable {V : Bytes → Option Bytes} {n n' : ℕ} {S W Q : List Record} {live live' : Record → Prop}
  {M D : List LiveTable}

theorem Knows.mono (h : Knows V n S W Q live M D) (hn : n ≤ n') : Knows V n' S W Q live M D := by
  obtain ⟨wM, hwM, hM⟩ := h.listed
  obtain ⟨wD, hwD, hD⟩ := h.readable
  exact ⟨h.remembered, fun r hr => (h.bounded r hr).trans hn, ⟨wM, hwM.trans hn, hM⟩,
    ⟨wD, hwD.trans hn, hD⟩, h.reads⟩

/-- Fewer records may come back. -/
theorem Knows.fewer (h : Knows V n S W Q live M D) (hlive : ∀ r, live' r → live r)
    (hlogged : ∀ r ∈ W, live' r) : Knows V n S W Q live' M D := by
  have hw := h.remembered
  obtain ⟨wM, hwM, hM⟩ := h.listed
  obtain ⟨wD, hwD, hD⟩ := h.readable
  have hgone : ∀ {A : List Record} {w : ℕ}, ∀ r ∈ A, r ∉ A → r.seqno ≤ w :=
    fun r hr hnot => absurd hr hnot
  exact ⟨⟨hw.ascending, hw.wal, hw.mem, fun r hr => hw.known r (hlive r hr), hlogged, hw.last⟩,
    h.bounded, ⟨wM, hwM, hM.shrink hw hlive hgone hgone⟩,
    ⟨wD, hwD, hD.shrink hw hlive hgone hgone⟩, h.reads⟩

end

/-- The log ends in `lost`, and the log without it and the tables tell what was written before. -/
structure Without (lost : List Record) (V : Bytes → Option Bytes) (e : Engine)
    (M D : List LiveTable) (S W : List Record) (ps : List (List Record)) (q : List Record) :
    Prop where
  log : WalLog.records e.wal.dir = W ++ lost
  immutables : e.immutables = (ps.map e.config.memtable).reverse
  nonempty : ∀ p ∈ ps, p ≠ []
  knows : Knows V e.wal.lastSeqno S W (ps.flatten ++ q) (Returning W ps) M D

theorem Returning.mono {W W' : List Record} {ps ps' : List (List Record)} {r : Record}
    (h : Returning W ps r) (hW : ∀ a ∈ W, a ∈ W') (hps : ∀ p ∈ ps, p ∈ ps') :
    Returning W' ps' r := by
  rcases h with h | ⟨p, hp, hz⟩
  · exact .inl (hW r h)
  · exact .inr ⟨p, hps p hp, hz⟩

section
variable {V : Bytes → Option Bytes} {e e' : Engine} {M D M' D' : List LiveTable}
  {S W lost : List Record} {ps : List (List Record)} {q : List Record}

theorem Tells.without_nil (h : Tells V e M D S ps q) :
    Without [] V e M D S (WalLog.records e.wal.dir) ps q :=
  ⟨(List.append_nil _).symm, h.immutables, h.nonempty, h.knows.fewer
    (fun _ hr => hr.mono (fun _ ha => ha) (fun _ hp => List.mem_append_left _ hp))
    (fun _ hr => .inl hr)⟩

/-- After a crash the directory tells what was written before the records that are gone. -/
theorem Without.crash (h : Without lost V e M D S W ps q)
    (hfits : ∀ r ∈ WalLog.records e.wal.dir, WalLog.Fits r) {d : Disk} (hs : WalLog.Sealed d.wal)
    (hW : WalLog.records d.wal = W) (hD : d.Holds D) : d.Tells V D := by
  have hw := h.knows.remembered
  obtain ⟨w, -, htables⟩ := h.knows.readable
  have hsame : ∀ r ∈ WalLog.records d.wal, WalLog.Fits r := fun r hr =>
    hfits r (h.log ▸ List.mem_append_left lost (hW ▸ hr))
  refine ⟨hs, hsame, ?_, hD, ?_, w, ?_⟩ <;> rw [hW]
  · exact hw.ascending.sublist hw.wal.sublist
  · exact fun k r hr => hw.last k r (lastRecord_of_suffix hw.wal hr)
  · exact htables.reopen hw

end

/-! ## Steps of a write -/

section
variable {V : Bytes → Option Bytes} {e : Engine} {M D : List LiveTable} {S W lost : List Record}
  {ps : List (List Record)} {q : List Record}

theorem Tells.roll (h : Tells V e M D S ps q) :
    Tells V { e with wal := WalLog.rollSegment e.wal } M D S ps q := by
  have hroll := WalLog.rolls_rollSegment h.log
  refine ⟨hroll.intact, hroll.isOpen, h.isOpen, hroll.records.symm ▸ h.fits,
    h.holds.of_eq rfl rfl rfl rfl rfl, h.version, h.immutables, h.active, h.nonempty, ?_⟩
  show Knows _ (WalLog.rollSegment e.wal).lastSeqno _
    (WalLog.records (WalLog.rollSegment e.wal).dir) _ (Returning _ _) _ _
  rw [hroll.records, hroll.lastSeqno]
  exact h.knows

theorem Tells.append (h : Tells V e M D S ps q) {r : Record} (hfit : WalLog.Fits r)
    (hr : r.seqno = e.wal.lastSeqno + 1) :
    Tells (fun k => if r.key = k then r.row.result else V k)
      { e with wal := WalLog.appendRecord r e.wal, active := e.active.applyRecord r } M D
      (S ++ [r]) ps (q ++ [r]) := by
  have hlt : e.wal.lastSeqno < r.seqno := hr ▸ Nat.lt_succ_self _
  obtain ⟨_, _, -, -, happ⟩ := WalLog.appends_appendRecord h.log h.walOpen hlt
  refine ⟨happ.intact, happ.isOpen, h.isOpen, happ.forall_records h.fits hfit,
    h.holds.of_eq rfl rfl rfl rfl rfl, h.version, h.immutables, ?_, h.nonempty, ?_⟩
  · show e.active.applyRecord r = e.config.memtable (q ++ [r])
    rw [h.active, e.config.memtable_snoc]
  · show Knows _ (WalLog.appendRecord r e.wal).lastSeqno _
      (WalLog.records (WalLog.appendRecord r e.wal).dir) _ (Returning _ _) _ _
    rw [happ.records, happ.lastSeqno, ← List.append_assoc]
    exact h.knows.write hlt (fun z hz => returning_snoc hz) (fun z hz => .inl hz)

theorem Tells.rotate (h : Tells V e M D S ps q) (hq : q ≠ []) :
    Tells V (Engine.freeze { e with wal := (WalLog.roll e.wal).1 }).publishVersion M D S
      (ps ++ [q]) [] := by
  have hroll := WalLog.rolls_roll h.log h.walOpen
  refine ⟨hroll.intact, hroll.isOpen, h.isOpen, hroll.records.symm ▸ h.fits,
    h.holds.of_eq rfl rfl rfl rfl rfl, rfl, ?_, rfl, fun p hp => ?_, ?_⟩
  · show e.active :: e.immutables = ((ps ++ [q]).map e.config.memtable).reverse
    rw [h.active, h.immutables]
    simp
  · rcases List.mem_append.mp hp with hp | hp
    · exact h.nonempty p hp
    · exact List.mem_singleton.mp hp ▸ hq
  · show Knows _ (WalLog.roll e.wal).1.lastSeqno _ (WalLog.records (WalLog.roll e.wal).1.dir) _
      (Returning (WalLog.records (WalLog.roll e.wal).1.dir) _) _ _
    rw [hroll.records, hroll.lastSeqno, List.flatten_append, List.flatten_singleton,
      List.append_nil]
    exact h.knows.fewer (fun _ hz => hz.of_fresh) (fun _ hz => .inl hz)

theorem Without.roll (h : Without lost V e M D S W ps q) (hlive : WalLog.Live e.wal) :
    Without lost V { e with wal := WalLog.rollSegment e.wal } M D S W ps q :=
  ⟨(WalLog.records_rollSegment hlive).trans h.log, h.immutables, h.nonempty, h.knows⟩

/-- A record that comes after those that are gone goes with them. -/
theorem Without.append (h : Without lost V e M D S W ps q) (hlive : WalLog.Live e.wal)
    {r : Record} (hr : r.seqno = e.wal.lastSeqno + 1) :
    Without (lost ++ [r]) V
      { e with wal := WalLog.appendRecord r e.wal, active := e.active.applyRecord r } M D S W ps
      q := by
  refine ⟨?_, h.immutables, h.nonempty, h.knows.mono ?_⟩
  · show WalLog.records (WalLog.appendRecord r e.wal).dir = _
    rw [WalLog.records_appendRecord hlive, h.log, List.append_assoc]
  · show e.wal.lastSeqno ≤ r.seqno
    omega

end

/-! ## Stores that endure a crash -/

/-- Whatever end of `u` is lost, the log and the tables tell what was written before. -/
def Forgets (rs u : List Record) (e : Engine) (M D : List LiveTable) : Prop :=
  ∀ lost, lost <:+ u → ∃ rs₀, rs = rs₀ ++ lost ∧
    ∃ S W ps q, Without lost (lastWritten rs₀) e M D S W ps q

/-- An open store that tells what was last written, also when a crash takes what no sync has
reached. -/
structure Endures (rs : List Record) (e : Engine) (M D : List LiveTable) : Prop where
  tells : ∃ S ps q, Tells (lastWritten rs) e M D S ps q
  forgets : Forgets rs e.wal.unsynced e M D
  every : e.wal.fsyncEveryN = max 1 e.config.walFsyncEveryN

/-- Whatever a crash leaves of the directory tells what is left of `rs`, and fewer than `n`
records are gone. -/
def Disk.Endures (rs : List Record) (n : ℕ) (d : Disk) : Prop :=
  ∀ d', d.Left d' → d.lost d' < n ∧ ∃ D, d'.Tells (lastWritten (rs.rdrop (d.lost d'))) D

section
variable {rs u : List Record} {e e' : Engine} {M D M' D' : List LiveTable}

theorem Disk.Endures.mono {d : Disk} {n n' : ℕ} (h : d.Endures rs n) (hn : n ≤ n') :
    d.Endures rs n' :=
  fun d' hleft => ⟨(h d' hleft).1.trans_le hn, (h d' hleft).2⟩

theorem Forgets.mono (h : Forgets rs u e M D) {u' : List Record} (hu : u' <:+ u) :
    Forgets rs u' e M D :=
  fun lost hlost => h lost (hlost.trans hu)

theorem Tells.forgets_nil {S : List Record} {ps : List (List Record)} {q : List Record}
    (h : Tells (lastWritten rs) e M D S ps q) : Forgets rs [] e M D := by
  intro lost hlost
  obtain rfl := List.suffix_nil.mp hlost
  exact ⟨rs, (List.append_nil rs).symm, S, _, ps, q, h.without_nil⟩

/-- A crash over a log with the records of `e`, of which it may take `u`. -/
theorem Forgets.endures {w : Wal Record} (h : Forgets rs w.unsynced e M D)
    (hlive : WalLog.Live w) (hsame : WalLog.records w.dir = WalLog.records e.wal.dir)
    (hfits : ∀ r ∈ WalLog.records e.wal.dir, WalLog.Fits r) {n : ℕ} (hn : w.unsynced.length < n)
    {d : Disk} (hlog : d.wal = w.dir) (hD : d.Holds D) : d.Endures rs n := by
  intro d' hleft
  obtain ⟨lost, hlost, hsuffix⟩ := Left.exists_lost (hlog ▸ hleft.log) hlive
  obtain ⟨rs₀, rfl, S, W, ps, q, hwithout⟩ := h lost hsuffix
  have hcount : d.lost d' = lost.length := by
    rw [Disk.lost, hlog, hlost, List.length_append, Nat.add_sub_cancel_left]
  have hW : WalLog.records d'.wal = W :=
    List.append_cancel_right (hlost.symm.trans (hsame.trans hwithout.log))
  have hholds : d'.Holds D := by
    rw [hleft.rest]
    exact hD.of_eq rfl hD.files
  rw [hcount, List.rdrop_append_length]
  exact ⟨hsuffix.length_le.trans_lt hn, D, hwithout.crash hfits hleft.log.stable hW hholds⟩

theorem Endures.lag (h : Endures rs e M D) :
    e.wal.unsynced.length < max 1 e.config.walFsyncEveryN := by
  obtain ⟨S, ps, q, htells⟩ := h.tells
  exact (length_unsynced htells.log).trans_lt (htells.log.lag.trans_eq h.every)

theorem Endures.disk (h : Endures rs e M D) {d : Disk} (hlog : d.wal = e.wal.dir)
    (hD : d.Holds D) : d.Endures rs (max 1 e.config.walFsyncEveryN) := by
  obtain ⟨S, ps, q, htells⟩ := h.tells
  exact h.forgets.endures htells.log.toLive rfl htells.fits h.lag hlog hD

/-! ## Writes -/

theorem Endures.roll (h : Endures rs e M D) :
    Endures rs { e with wal := WalLog.rollSegment e.wal } M D := by
  obtain ⟨S, ps, q, htells⟩ := h.tells
  refine ⟨⟨S, ps, q, htells.roll⟩, ?_, h.every⟩
  show Forgets rs (WalLog.rollSegment e.wal).unsynced _ M D
  rw [unsynced_rollSegment htells.log.toLive]
  exact htells.roll.forgets_nil

theorem Endures.makeRoom (h : Endures rs e M D) (r : Record) :
    Endures rs { e with wal := WalLog.makeRoom r e.wal } M D := by
  rw [WalLog.makeRoom]
  split
  · exact h.roll
  · exact h

/-- Of the records that wait for a sync and a new one, any end may be lost. -/
theorem Forgets.append (h : Forgets rs u e M D) (hlive : WalLog.Live e.wal) {r : Record}
    (hr : r.seqno = e.wal.lastSeqno + 1) {S : List Record} {ps : List (List Record)}
    {q : List Record} (hnew : Tells (lastWritten (rs ++ [r]))
      { e with wal := WalLog.appendRecord r e.wal, active := e.active.applyRecord r } M D S ps q) :
    Forgets (rs ++ [r]) (u ++ [r])
      { e with wal := WalLog.appendRecord r e.wal, active := e.active.applyRecord r } M D := by
  intro lost hlost
  rcases List.suffix_concat_iff.mp hlost with rfl | ⟨older, rfl, holder⟩
  · exact hnew.forgets_nil [] List.nil_suffix
  · obtain ⟨rs₀, rfl, S₀, W₀, ps₀, q₀, hwithout⟩ := h older holder
    exact ⟨rs₀, List.append_assoc _ _ _, S₀, W₀, ps₀, q₀, hwithout.append hlive hr⟩

theorem Endures.append (h : Endures rs e M D) {r : Record} (hfit : WalLog.Fits r)
    (hr : r.seqno = e.wal.lastSeqno + 1) :
    Endures (rs ++ [r])
      { e with wal := WalLog.appendRecord r e.wal, active := e.active.applyRecord r } M D := by
  obtain ⟨S, ps, q, htells⟩ := h.tells
  have hnew := htells.append hfit hr
  rw [← lastWritten_snoc] at hnew
  refine ⟨⟨_, _, _, hnew⟩, ?_, (WalLog.appendRecord_fsyncEveryN r e.wal).trans h.every⟩
  refine (h.forgets.append htells.log.toLive hr hnew).mono ?_
  rw [← unsynced_writeRecord]
  exact unsynced_syncPolicy _

/-- Once written, the record and those that wait with it may be lost. -/
theorem Endures.written (h : Endures rs e M D) {r : Record} (hfit : WalLog.Fits r)
    (hr : r.seqno = e.wal.lastSeqno + 1) {d : Disk}
    (hlog : d.wal = (WalLog.writeRecord r e.wal).dir) (hD : d.Holds D) :
    d.Endures (rs ++ [r]) (1 + max 1 e.config.walFsyncEveryN) := by
  obtain ⟨S, ps, q, htells⟩ := h.tells
  have hlive := htells.log.toLive
  have hwritten : WalLog.Live (WalLog.writeRecord r e.wal) := by
    obtain ⟨pre, f, hends, hpre⟩ := hlive
    exact ⟨pre, _, WalLog.ends_writeRecord hends r, hpre⟩
  have hnew := htells.append hfit hr
  rw [← lastWritten_snoc] at hnew
  have hforgets := h.forgets.append hlive hr hnew
  rw [← unsynced_writeRecord] at hforgets
  refine hforgets.endures hwritten ?_ hnew.fits ?_ hlog hD
  · exact (records_writeRecord hlive r).trans (WalLog.records_appendRecord hlive r).symm
  · have := h.lag
    rw [unsynced_writeRecord, List.length_append, List.length_singleton]
    omega

theorem Endures.rotate (h : Endures rs e M D) (hactive : ∃ k row, e.active.find k = some row) :
    Endures rs (Engine.freeze { e with wal := (WalLog.roll e.wal).1 }).publishVersion M D := by
  obtain ⟨S, ps, q, htells⟩ := h.tells
  have hq : q ≠ [] := by
    rintro rfl
    obtain ⟨k, row, hrow⟩ := hactive
    rw [htells.active, find_memtable] at hrow
    cases hrow
  have hroll : (WalLog.roll e.wal).1 = WalLog.rollSegment e.wal := by
    rw [WalLog.roll, htells.walOpen]
    rfl
  refine ⟨⟨_, _, _, htells.rotate hq⟩, ?_, ?_⟩
  · have hnone : (WalLog.roll e.wal).1.unsynced = [] := by
      rw [hroll]
      exact unsynced_rollSegment htells.log.toLive
    show Forgets rs (WalLog.roll e.wal).1.unsynced _ M D
    rw [hnone]
    exact (htells.rotate hq).forgets_nil
  · show (WalLog.roll e.wal).1.fsyncEveryN = _
    rw [hroll]
    exact h.every

/-- A write is refused, or its record goes where there is room for it and into the memtable. -/
theorem write_eq (del : Bool) (key value : Bytes) (e : Engine) :
    (∃ x, e.checkWrite key value = .error x ∧ e.write del key value = (e, .error x)) ∨
    (e.checkWrite key value = .ok () ∧ e.write del key value =
      (Engine.applyMutation false { e with
          wal := WalLog.appendRecord (e.nextRecord del key value)
            (WalLog.makeRoom (e.nextRecord del key value) e.wal) } (e.nextRecord del key value),
        .ok (e.wal.lastSeqno + 1))) := by
  rw [Engine.checkWrite, Engine.write]
  rcases e.ensureOpen with x | u
  · exact .inl ⟨x, rfl, rfl⟩
  by_cases hkey : key = []
  · exact .inl ⟨_, by rw [if_pos hkey]; rfl, if_pos hkey⟩
  rcases hcapacity : e.ensureWriteCapacity with x | u
  · exact .inl ⟨x, by rw [if_neg hkey]; rfl, if_neg hkey⟩
  rcases hcheck : Wal.checkAppend e.wal.isOpen key value with x | u
  · refine .inl ⟨x, by rw [if_neg hkey]; rfl, ?_⟩
    simp only [if_neg hkey, WalLog.append, WalLog.appendAs, hcheck]
  · refine .inr ⟨by rw [if_neg hkey]; rfl, ?_⟩
    simp only [if_neg hkey, WalLog.append, WalLog.appendAs, hcheck]
    rfl

theorem nextRecord_seqno (del : Bool) (key value : Bytes) (e : Engine) :
    (e.nextRecord del key value).seqno =
      (WalLog.makeRoom (e.nextRecord del key value) e.wal).lastSeqno + 1 := by
  rw [WalLog.makeRoom]
  split <;> rfl

theorem Endures.write (h : Endures rs e M D) {del : Bool} {key value : Bytes}
    (hfit : kMinPayload + key.length + value.length ≤ kMaxPayload) :
    Endures (rs ++ ((e.write del key value).2.toOption.map
      (fun n => (⟨del, key, value, n⟩ : Record))).toList) (e.write del key value).1 M D := by
  rcases write_eq del key value e with ⟨x, -, heq⟩ | ⟨-, heq⟩
  · rw [heq]
    show Endures (rs ++ []) e M D
    rwa [List.append_nil]
  · rw [heq]
    have hnext := nextRecord_seqno del key value e
    have hfits : WalLog.Fits (e.nextRecord del key value) := hfit
    have happend := (h.makeRoom (e.nextRecord del key value)).append hfits hnext
    rcases Engine.applyMutation_cases false { e with
        wal := WalLog.appendRecord (e.nextRecord del key value)
          (WalLog.makeRoom (e.nextRecord del key value) e.wal) } (e.nextRecord del key value) with
      ⟨-, hstay⟩ | ⟨-, hrotate⟩
    · rw [hstay]
      exact happend
    · rw [hrotate]
      have hfind : (e.active.applyRecord (e.nextRecord del key value)).find key =
          some (e.nextRecord del key value).row := by
        rw [Memtable.find, Memtable.applyRecord, Memtable.map_apply]
        exact find?_insert_self _ _ _
      exact happend.rotate ⟨key, _, hfind⟩

theorem Endures.writing (h : Endures rs e M D) {del : Bool} {key value : Bytes}
    (hfit : kMinPayload + key.length + value.length ≤ kMaxPayload) {d : Disk}
    {added : List Record} (hd : (d, added) ∈ e.writing del key value) :
    d.Endures (rs ++ added) (added.length + max 1 e.config.walFsyncEveryN) := by
  obtain ⟨S, ps, q, htells⟩ := h.tells
  have hD : e.disk.Holds D := htells.holds.disk
  have hnext := nextRecord_seqno del key value e
  have hfits : WalLog.Fits (e.nextRecord del key value) := hfit
  have hroom := h.makeRoom (e.nextRecord del key value)
  rw [Engine.writing] at hd
  split at hd
  · cases hd
  simp only [WalLog.appending, List.map_cons, List.map_nil, List.mem_cons, Prod.mk.injEq,
    List.not_mem_nil, or_false] at hd
  rcases hd with ⟨rfl, rfl⟩ | ⟨rfl, rfl⟩ | ⟨rfl, rfl⟩
  · rw [List.append_nil, List.length_nil, Nat.zero_add]
    exact hroom.disk rfl (hD.of_eq rfl hD.files)
  · exact hroom.written hfits hnext rfl (hD.of_eq rfl hD.files)
  · refine Disk.Endures.mono ?_ (Nat.le_add_left _ _)
    exact (hroom.append hfits hnext).disk rfl (hD.of_eq rfl hD.files)

/-! ## Flushes -/

/-- What waits for a sync is still there after a removal. -/
theorem unsynced_removeFirst (w : Wal Record) (n k : ℕ) :
    (w.removeFirst n k).unsynced = w.unsynced := by
  rw [Wal.removeFirst]
  induction w.dir.keys.take k generalizing w with
  | nil => rfl
  | cons id ids ih =>
    rw [List.foldl_cons, ih, unsynced_removeStep]

theorem Holds.maxSeqno_le (h : Holds e M D) (w : ℕ) (hw : ∀ U ∈ M, U.info.maxSeqno ≤ w) :
    e.manifest.maxSeqno ≤ w := by
  refine Manifest.maxSeqno_le (fun t ht => ?_)
  rw [← h.manifest] at ht
  obtain ⟨U, hU, rfl⟩ := List.mem_map.mp ht
  exact hw U hU

/-- The store with a flushed table and with the log cut down to what is above `n`. -/
theorem Forgets.flush (h : Forgets rs e.wal.unsynced e M M) (hlog : WalLog.Intact e.wal)
    {target : Memtable} (ht : e.immutables.getLast? = some target) {T : LiveTable}
    (hT : T.rows = target.map) {n : ℕ} (hn : ∀ w, (∀ U ∈ T :: M, U.info.maxSeqno ≤ w) → n ≤ w)
    (k : ℕ) (e' : Engine) (hwal : e'.wal = e.wal.removeFirst n k)
    (himm : e'.immutables = e.immutables.dropLast) (hconfig : e'.config = e.config) :
    Forgets rs e.wal.unsynced e' (T :: M) (T :: M) := by
  intro lost hlost
  obtain ⟨rs₀, hrs, S, W, ps, q, hwithout⟩ := h lost hlost
  obtain ⟨gone, hsplit, hgone⟩ := hlog.records_removeFirst n k
  obtain ⟨W', hW'⟩ : lost <:+ WalLog.records (e.wal.removeFirst n k).dir := by
    rw [records_eq_unsynced (hlog.removeFirst n k).toLive, unsynced_removeFirst]
    exact hlost.trans (List.suffix_append _ _)
  have hW : W = gone ++ W' := by
    have heq : W ++ lost = (gone ++ W') ++ lost := by
      rw [← hwithout.log, hsplit, List.append_assoc, hW']
    exact List.append_cancel_right heq
  obtain ⟨p, ps', rfl, hof⟩ : ∃ p ps', ps = p :: ps' ∧ TableOf p T := by
    rw [hwithout.immutables] at ht
    rcases ps with _ | ⟨p, ps'⟩
    · cases ht
    · obtain rfl : e.config.memtable p = target := by simpa using ht
      exact ⟨p, ps', rfl, tableOf_memtable (hwithout.nonempty p List.mem_cons_self) hT⟩
  have hlast : e'.wal.lastSeqno = e.wal.lastSeqno := by
    obtain ⟨dir, maxima, heq⟩ := WalLog.foldl_removeStep_eq n e.wal (e.wal.dir.keys.take k)
    rw [hwal, Wal.removeFirst, heq]
  have hknows := hwithout.knows
  rw [List.flatten_cons, List.append_assoc] at hknows
  refine ⟨rs₀, hrs, S, W', ps', q, by rw [hwal, hW'], ?_,
    fun p' hp' => hwithout.nonempty p' (List.mem_cons_of_mem _ hp'), ?_⟩
  · rw [himm, hconfig, hwithout.immutables]
    simp
  · rw [hlast]
    refine hknows.flush hof (fun key z hz => ?_) ⟨gone, hW.symm⟩ (fun r hr hout w hw => ?_)
      (fun z hz => ?_) (fun z hz => .inl hz)
    · obtain ⟨-, rfl⟩ := mem_of_lastRecord hz
      exact .inr ⟨p, List.mem_cons_self, hz⟩
    · rw [hW] at hr
      exact (hgone r ((List.mem_append.mp hr).resolve_right hout)).trans (hn w hw)
    · exact hz.mono (fun a ha => hW ▸ List.mem_append_right _ ha)
        (fun p' hp' => List.mem_cons_of_mem _ hp')

theorem Endures.flushed (h : Endures rs e M D) {target : Memtable} {T : LiveTable}
    (hf : Flushed e M D target T e') : Endures rs e' (T :: M) (T :: M) := by
  obtain ⟨S, ps, q, htells⟩ := h.tells
  obtain ⟨ps', hnew⟩ := htells.flush hf
  have hmax := hf.holds.maxSeqno_le
  obtain rfl := hf.saved
  obtain ⟨files, misindexed, rfl⟩ := hf.eq
  refine ⟨⟨S, ps', q, hnew⟩, ?_, ?_⟩
  · have hall : (e.wal.removeSegmentsCovered (e.manifest.addTable T.info).maxSeqno).1 =
        e.wal.removeFirst (e.manifest.addTable T.info).maxSeqno e.wal.dir.keys.length := by
      rw [Wal.removeFirst, List.take_length]
      rfl
    show Forgets rs (e.wal.removeSegmentsCovered (e.manifest.addTable T.info).maxSeqno).1.unsynced
      _ (T :: M) (T :: M)
    rw [hall, unsynced_removeFirst]
    exact h.forgets.flush htells.log hf.oldest hf.rows hmax _ _ rfl rfl rfl
  · show (e.wal.removeSegmentsCovered _).1.fsyncEveryN = _
    obtain ⟨dir, maxima, heq⟩ :=
      WalLog.foldl_removeStep_eq (e.manifest.addTable T.info).maxSeqno e.wal e.wal.dir.keys
    rw [Wal.removeSegmentsCovered, heq]
    exact h.every

/-- A table that only the manifest in memory lists. -/
theorem Endures.halfFlushed (h : Endures rs e M D) {target : Memtable} {T : LiveTable}
    (hf : HalfFlushed e M D target T e') : Endures rs e' (T :: M) D := by
  obtain ⟨S, ps, q, htells⟩ := h.tells
  have hnew := htells.halfFlush hf
  obtain ⟨files, misindexed, rfl⟩ := hf.eq
  refine ⟨⟨S, ps, q, hnew⟩, fun lost hlost => ?_, h.every⟩
  obtain ⟨rs₀, hrs, S₀, W, ps₀, q₀, hwithout⟩ := h.forgets lost hlost
  refine ⟨rs₀, hrs, S₀, W, ps₀, q₀, hwithout.log, hwithout.immutables, hwithout.nonempty, ?_⟩
  have ht := hf.oldest
  rw [hwithout.immutables] at ht
  rcases ps₀ with _ | ⟨p, ps₀⟩
  · cases ht
  obtain rfl : e.config.memtable p = target := by simpa using ht
  have hof := tableOf_memtable (hwithout.nonempty p List.mem_cons_self) hf.rows
  have hknows := hwithout.knows
  rw [List.flatten_cons, List.append_assoc] at hknows ⊢
  refine hknows.halfFlush hof (fun key z hz => ?_)
  obtain ⟨-, rfl⟩ := mem_of_lastRecord hz
  exact .inr ⟨p, List.mem_cons_self, hz⟩

theorem mem_removing {d : Disk} : d ∈ e.removing ↔ ∃ k ≤ e.wal.dir.keys.length,
    { e.disk with wal := (e.wal.removeFirst e.manifest.maxSeqno k).dir } = d := by
  simp only [Engine.removing, List.mem_map, List.mem_range, Nat.lt_succ_iff]

/-- The directories inside a flush. -/
theorem Endures.flushing (h : Endures rs e M D) {now : ℕ} {d : Disk} (hd : d ∈ e.flushing now) :
    d.Endures rs (max 1 e.config.walFsyncEveryN) := by
  obtain ⟨S, ps, q, htells⟩ := h.tells
  have hD : e.disk.Holds D := htells.holds.disk
  rw [Engine.flushing] at hd
  split at hd
  · cases hd
  rename_i target ht
  rcases List.mem_cons.mp hd with rfl | hd
  · exact h.disk rfl (hD.of_eq rfl hD.files)
  split at hd
  · cases hd
  rename_i placed r hwrite
  obtain ⟨rfl, T, hinfo, hrows, hid⟩ := writeSstable_eq hwrite now
  have hplaced := htells.holds.write target
  rcases List.mem_cons.mp hd with rfl | hd
  · exact h.disk rfl hplaced.disk
  have hadds : Adds (e.placeFile e.manifest.nextSstId target) T := by
    refine ⟨hid, ?_⟩
    rw [hid, hrows]
    exact find?_insert_self _ _ _
  rw [← hinfo] at hd
  rcases hplaced.publishFlush hadds with ⟨rfl, hpub, hholds⟩ | ⟨hpub, -⟩
  · rw [hpub] at hd hholds
    obtain ⟨k, -, rfl⟩ := mem_removing.mp hd
    have hintact := htells.log.removeFirst (e.manifest.addTable T.info).maxSeqno k
    obtain ⟨gone, hsplit, -⟩ :=
      htells.log.records_removeFirst (e.manifest.addTable T.info).maxSeqno k
    have hforgets : Forgets rs e.wal.unsynced
        { e with
          wal := e.wal.removeFirst (e.manifest.addTable T.info).maxSeqno k
          immutables := e.immutables.dropLast } (T :: M) (T :: M) :=
      h.forgets.flush htells.log ht hrows hholds.maxSeqno_le k _ rfl rfl rfl
    rw [← unsynced_removeFirst] at hforgets
    refine hforgets.endures hintact.toLive rfl (fun r hr => htells.fits r ?_) ?_ rfl
      (hholds.disk.of_eq rfl hholds.disk.files)
    · exact hsplit ▸ List.mem_append_right _ hr
    · rw [unsynced_removeFirst]
      exact h.lag
  · rw [hpub] at hd
    cases hd

/-! ## Compactions -/

theorem Forgets.of_eq (h : Forgets rs u e M D) (hwal : e'.wal = e.wal)
    (himm : e'.immutables = e.immutables) (hconfig : e'.config = e.config) :
    Forgets rs u e' M D := by
  intro lost hlost
  obtain ⟨rs₀, hrs, S, W, ps, q, hwithout⟩ := h lost hlost
  refine ⟨rs₀, hrs, S, W, ps, q, hwal ▸ hwithout.log, ?_, hwithout.nonempty, hwal ▸ hwithout.knows⟩
  rw [himm, hconfig]
  exact hwithout.immutables

theorem Without.remains {V : Bytes → Option Bytes} {S W lost : List Record}
    {ps : List (List Record)} {q : List Record} (h : Without lost V e M D S W ps q) {r : Record}
    (hr : Returning W ps r) {n : ℕ} (hlt : r.seqno < n) : Remains r.key n e := by
  rcases hr with hr | ⟨p, hp, hz⟩
  · exact .inl ⟨r, h.log ▸ List.mem_append_left _ hr, rfl, hlt⟩
  · refine .inr ⟨e.config.memtable p, List.mem_cons_of_mem _ ?_, r.row, ?_, hlt⟩
    · rw [h.immutables]
      exact List.mem_reverse.mpr (List.mem_map_of_mem hp)
    · show (e.config.memtable p).find r.key = _
      rw [find_memtable, hz]
      rfl

/-- A compaction that drops tombstones last does so whatever is lost. -/
theorem Forgets.compact (h : Forgets rs u e M D) (hM : Holds e M D) {ids : List ℕ} {now : ℕ}
    {front inputs back : List LiveTable} {out : Option LiveTable}
    (hdesc : Descending e.manifest.tables) (hdrops : DropsLast ids now e)
    (hs : Selects M ids front inputs back)
    (hm : Merges (front ++ back) inputs (e.drops ids now) out)
    (hperm : M'.Perm (front ++ (back ++ out.toList)))
    (htables : M'.map (·.info) =
      e.config.sort.run ((front ++ (back ++ out.toList)).map (·.info)))
    (hD : D' = D ∨ D' = M') : Forgets rs u e M' D' := by
  have hfiles : ∀ T ∈ inputs, e.files.find? T.info.id = some T.rows := fun T hT =>
    hM.files T (List.mem_append_left _ (hs.mem.mpr (.inr hT)))
  have hinputs := hM.inputMeta hs
  have hsorted : M'.Pairwise (fun T U => U.info.maxSeqno ≤ T.info.maxSeqno) := by
    have hdescending := e.config.sort.descending ((front ++ (back ++ out.toList)).map (·.info))
    rw [← htables] at hdescending
    exact List.pairwise_map.mp hdescending
  have hnewest : Newest M := by
    rw [Newest, hM.manifest]
    exact hdesc
  intro lost hlost
  obtain ⟨rs₀, hrs, S, W, ps, q, hwithout⟩ := h lost hlost
  refine ⟨rs₀, hrs, S, W, ps, q, hwithout.log, hwithout.immutables, hwithout.nonempty,
    hwithout.knows.compact hnewest hs hm ?_
      (hperm.trans (List.perm_append_comm.append_left front)) hsorted hD⟩
  rintro k row hrow hgone r hr rfl
  obtain ⟨T, hT, hfind⟩ := exists_of_tableHit hrow
  by_contra hlt
  refine hdrops T.info (hinputs ▸ List.mem_map_of_mem hT) T.rows (hfiles T hT) (r.key, row)
    (find?_eq_some_iff.mp hfind) ?_ hgone (hwithout.remains hr (not_le.mp hlt))
  rw [hinputs, findTables_eq hfiles, hrow]

theorem Endures.compacted (h : Endures rs e M D) {choice : Option (List ℕ)} {now : ℕ}
    (hc : Compacted e M D choice now e' M' D') (hs : SameMemory e e')
    (hv : e'.version.tables = e'.readers)
    (horderly : ∀ ids ∈ (e.chooseInputs choice).toOption.join,
      Descending e.manifest.tables ∧ DropsLast ids now e) : Endures rs e' M' D' := by
  obtain ⟨S, ps, q, htells⟩ := h.tells
  obtain ⟨ids, front, inputs, back, out, hchoice, hsel, hmerges, hperm, htables⟩ := hc.plan
  obtain ⟨hdesc, hdrops⟩ := horderly ids (by rw [hchoice]; rfl)
  have hforgets := h.forgets.compact htells.holds hdesc hdrops hsel hmerges hperm htables hc.readers
  refine ⟨⟨S, ps, q, htells.compact hc hs hv horderly⟩, ?_, ?_⟩
  · rw [hs.wal]
    exact hforgets.of_eq hs.wal hs.immutables hs.config
  · rw [hs.wal, hs.config]
    exact h.every

/-- The directories inside a compaction. -/
theorem Endures.compacting (h : Endures rs e M D) {choice : Option (List ℕ)} {now created : ℕ}
    (horderly : ∀ ids ∈ (e.chooseInputs choice).toOption.join,
      Descending e.manifest.tables ∧ DropsLast ids now e) {d : Disk}
    (hd : d ∈ e.compacting choice now created) :
    d.Endures rs (max 1 e.config.walFsyncEveryN) := by
  obtain ⟨S, ps, q, htells⟩ := h.tells
  have hD : e.disk.Holds D := htells.holds.disk
  rw [Engine.compacting] at hd
  split at hd
  · cases hd
  split at hd
  · cases hd
  · cases hd
  rename_i ids hchoice
  obtain ⟨hdesc, hdrops⟩ := horderly ids (by rw [hchoice]; rfl)
  obtain ⟨front, inputs, back, hsel⟩ := htells.holds.selects hchoice
  obtain ⟨final, merged, n, hmerge, hrows⟩ := htells.holds.mergeInputs hsel now
  split at hd
  · cases hd
  rename_i final' rest hscan
  obtain ⟨rfl, -⟩ := Prod.mk.inj (Except.ok.inj (hmerge.symm.trans (scanInputs_ok hscan)))
  rcases List.mem_cons.mp hd with rfl | hd
  · exact h.disk rfl (hD.of_eq rfl hD.files)
  split at hd
  · cases hd
  rename_i placed added hwrite
  obtain ⟨out, rfl, hmerges, hadds, ⟨files, misindexed, rfl⟩, hplaced⟩ :=
    htells.holds.writeOutput hrows (fun r hr => htells.holds.of_drops hsel hr) hwrite
  rcases List.mem_cons.mp hd with rfl | hd
  · exact h.disk rfl hplaced.disk
  obtain ⟨M', hperm, htables⟩ := exists_perm_map (f := LiveTable.info)
    (l := front ++ (back ++ out.toList)) (e.config.sort.perm _).symm
  have hforgets := h.forgets.compact htells.holds hdesc hdrops hsel hmerges hperm htables (.inr rfl)
  rcases hplaced.publishCompaction (hplaced.compactionEdit hsel hadds hperm htables) with
    ⟨m, readers, -, hpub, hholds⟩ | ⟨m, -, hpub, -⟩
  · rw [hpub] at hd hholds
    obtain ⟨k, -, rfl⟩ := List.mem_map.mp hd
    obtain ⟨hdeleted, files', heq⟩ := hholds.deleteInputs rfl []
      ((e.readers.filter (fun r => r.id ∈ ids)).take k)
    refine hforgets.endures htells.log.toLive rfl htells.fits h.lag ?_ hdeleted.disk
    show (List.foldl (Engine.deleteInput []) _ _).wal.dir = _
    dsimp only at heq ⊢
    rw [heq]
  · rw [hpub] at hd
    cases hd

/-! ## Calls -/

theorem Endures.call (h : Endures rs e M D) {c : Call} (hc : Orderly e c) :
    (e.perform c).config = e.config ∧
      ∃ M' D', Endures (rs ++ (e.accepted c).toList) (e.perform c) M' D' := by
  obtain ⟨S, ps, q, htells⟩ := h.tells
  have hquiet : ∀ {e' : Engine} {M' D' : List LiveTable}, Endures rs e' M' D' →
      ∃ M' D', Endures (rs ++ []) e' M' D' := by
    intro e' M' D' he'
    rw [List.append_nil]
    exact ⟨M', D', he'⟩
  cases c with
  | put key value => exact ⟨(sameTables_write false key value e).config, M, D, h.write hc⟩
  | remove key => exact ⟨(sameTables_write true key [] e).config, M, D, h.write hc⟩
  | flushOne now =>
    show (e.flushOne now).1.config = e.config ∧ ∃ M' D', Endures (rs ++ []) (e.flushOne now).1 M' D'
    rcases htells.holds.flushOne now with ⟨heq, -⟩ | ⟨target, T, hf, -⟩ | ⟨target, T, hf, -⟩
    · rw [heq]
      exact ⟨rfl, hquiet h⟩
    · refine ⟨?_, hquiet (h.flushed hf)⟩
      obtain ⟨files, misindexed, heq⟩ := hf.eq
      rw [heq]
    · refine ⟨?_, hquiet (h.halfFlushed hf)⟩
      obtain ⟨files, misindexed, heq⟩ := hf.eq
      rw [heq]
  | runCompaction inputs now created =>
    show (e.runCompaction inputs now created).1.config = e.config ∧
      ∃ M' D', Endures (rs ++ []) (e.runCompaction inputs now created).1 M' D'
    have hversion : e.version.tables = e.readers := by rw [htells.version]
    rcases htells.holds.runCompaction hversion inputs now created with
      heq | ⟨⟨M', D', hcompacted⟩, hs, hv⟩
    · rw [heq]
      exact ⟨rfl, hquiet h⟩
    · exact ⟨hs.config, hquiet (h.compacted hcompacted hs hv hc)⟩

/-- Wherever in a call the crash comes. -/
theorem Endures.during (h : Endures rs e M D) {c : Call} (hc : Orderly e c) {d : Disk}
    {added : List Record} (hd : (d, added) ∈ e.during c) :
    d.Endures (rs ++ added) (added.length + max 1 e.config.walFsyncEveryN) := by
  obtain ⟨S, ps, q, htells⟩ := h.tells
  have hquiet : d.Endures rs (max 1 e.config.walFsyncEveryN) →
      d.Endures (rs ++ []) (([] : List Record).length + max 1 e.config.walFsyncEveryN) := by
    rw [List.append_nil, List.length_nil, Nat.zero_add]
    exact id
  rw [Engine.during, List.cons_append, List.mem_cons, List.mem_append, List.mem_singleton] at hd
  rcases hd with heq | hd | heq
  · obtain ⟨rfl, rfl⟩ := Prod.mk.inj heq
    exact hquiet (h.disk rfl htells.holds.disk)
  · cases c with
    | put key value => exact h.writing hc hd
    | remove key =>
      have hfit : kMinPayload + key.length + ([] : Bytes).length ≤ kMaxPayload := hc
      exact h.writing hfit hd
    | flushOne now =>
      obtain ⟨d', hin, heq⟩ := List.mem_map.mp hd
      obtain ⟨rfl, rfl⟩ := Prod.mk.inj heq
      exact hquiet (h.flushing hin)
    | runCompaction inputs now created =>
      obtain ⟨d', hin, heq⟩ := List.mem_map.mp hd
      obtain ⟨rfl, rfl⟩ := Prod.mk.inj heq
      exact hquiet (h.compacting hc hin)
  · obtain ⟨rfl, rfl⟩ := Prod.mk.inj heq
    obtain ⟨hconfig, M', D', hnew⟩ := h.call hc
    obtain ⟨S', ps', q', htells'⟩ := hnew.tells
    have hdisk := hnew.disk rfl htells'.holds.disk
    rw [hconfig] at hdisk
    exact hdisk.mono (Nat.le_add_left _ _)

/-! ## Opening -/

theorem appendsSinceSync_opened {config : Config} {d : Disk} (h : Engine.open config d = .ok e) :
    e.wal.appendsSinceSync = 0 := by
  obtain rfl := eq_of_open h
  rw [recover_eq]
  show (WalLog.open (Engine.loaded config d).wal).1.appendsSinceSync = 0
  unfold WalLog.open
  dsimp only
  split <;> rfl

theorem config_opened {config : Config} {d : Disk} (h : Engine.open config d = .ok e) :
    e.config = config := by
  obtain rfl := eq_of_open h
  rw [recover_eq]
  rfl

theorem Disk.Tells.endures {d : Disk} (h : d.Tells (lastWritten rs) D) {config : Config}
    (hopen : Engine.open config d = .ok e) : e.wal.unsynced = [] ∧ ∃ M, LsmKv.Endures rs e M M := by
  obtain ⟨M, ps, q, htells⟩ := h.opened config
  obtain rfl : e = Host.opened config d := eq_of_open hopen
  have hnone : (Host.opened config d).wal.unsynced = [] := by
    have hle := length_unsynced htells.log
    rw [appendsSinceSync_opened hopen] at hle
    exact List.length_eq_zero_iff.mp (Nat.le_zero.mp hle)
  refine ⟨hnone, M, ⟨_, ps, q, htells⟩, hnone ▸ htells.forgets_nil, ?_⟩
  rw [fsyncEveryN_opened hopen, config_opened hopen]

theorem Disk.Tells.left {V : Bytes → Option Bytes} {d d' : Disk} (h : d.Tells V D)
    (hleft : d.Left d') : d'.Tells V D := by
  have hsame := hleft.log.records_eq (WalLog.durableRecords_of_sealed h.log)
  have hD : d'.Holds D := by
    rw [hleft.rest]
    exact h.holds.of_eq rfl h.holds.files
  refine ⟨hleft.log.stable, ?_, ?_, hD, ?_, ?_⟩ <;> rw [hsame]
  exacts [h.fits, h.ascending, h.last, h.tables]

/-- Files that no table needs may go. -/
theorem Disk.Tells.clean {V : Bytes → Option Bytes} {d : Disk} (h : d.Tells V D) (config : Config)
    (temps : List ℕ) (keep : ℕ → Rows → Bool) (hkeep : ∀ id rows, (Manifest.restore config.sort
      d.manifest).tables.any (fun t => t.id = id) = true → keep id rows = true) :
    Disk.Tells V { d with temps := temps, files := d.files.filter keep } D := by
  refine ⟨h.log, h.fits, h.ascending, h.holds.of_eq rfl (fun T hT => ?_), h.last, h.tables⟩
  show (d.files.filter keep).find? T.info.id = _
  rw [find?_filter, h.holds.files T hT, Option.filter_some, hkeep, if_pos rfl]
  refine List.any_eq_true.mpr ⟨T.info, ?_, by simp⟩
  refine (restore_tables config.sort d.manifest).mem_iff.mpr ?_
  exact h.holds.stored.mem_iff.mpr (List.mem_map_of_mem hT)

/-- What a crash inside `open` leaves. -/
theorem Disk.Tells.opening {d d₁ d' : Disk} (h : d.Tells (lastWritten rs) D) {config : Config}
    (ho : Opening config d d₁) (hleft : d₁.Left d') : ∃ D', d'.Tells (lastWritten rs) D' := by
  cases ho with
  | temps gone =>
    have htells : Disk.Tells (lastWritten rs) { d with temps := d.temps.filter (· ∉ gone) } D :=
      ⟨h.log, h.fits, h.ascending, h.holds.of_eq rfl h.holds.files, h.last, h.tables⟩
    exact ⟨D, htells.left hleft⟩
  | orphans hload gone =>
    obtain rfl := restore_of_loadOrCreate hload
    exact ⟨D, (h.clean config [] _ (fun id _ hlisted => by rw [hlisted]; rfl)).left hleft⟩
  | scan hopen n =>
    rw [repairFirst_of_fits h.fits] at hleft
    exact ⟨D, (h.clean config [] _ (fun _ _ hlisted => hlisted)).left hleft⟩
  | opened hopen =>
    obtain ⟨hnone, M, hendures⟩ := h.endures hopen
    obtain ⟨S, ps, q, htells⟩ := hendures.tells
    obtain ⟨hlost, D', htells'⟩ := hendures.forgets.endures htells.log.toLive rfl htells.fits
      (by rw [hnone]; exact Nat.one_pos) rfl htells.holds.disk d' hleft
    rw [Nat.lt_one_iff.mp hlost, List.rdrop_zero] at htells'
    exact ⟨D', htells'⟩

end

/-! ## Runs -/

def Host.Endures (rs : List Record) : Host → Prop
  | .shut d => ∃ D, d.Tells (lastWritten rs) D
  | .up e => ∃ M D, LsmKv.Endures rs e M D

theorem Host.Endures.reads {s : Host} {rs : List Record} (h : s.Endures rs) (hloads : s.Loads) :
    s.Reads rs := by
  cases s with
  | shut d => exact Host.Tells.reads h hloads
  | up e =>
    obtain ⟨M, D, hendures⟩ := h
    obtain ⟨S, ps, q, htells⟩ := hendures.tells
    exact Host.Tells.reads (s := .up e) ⟨M, D, S, ps, q, htells⟩ hloads

theorem Host.Endures.losesFew {s : Host} {rs : List Record} (h : s.Endures rs) :
    s.LosesFew Orderly := by
  cases s with
  | shut d => trivial
  | up e =>
    obtain ⟨M, D, hendures⟩ := h
    exact fun c hc p hp d hleft => (hendures.during hc hp d hleft).1

theorem Host.Endures.step {opens : Config → Prop} {ok : Engine → Call → Prop}
    (hok : ∀ e c, ok e c → Orderly e c) {s s' : Host} {rs rs' : List Record}
    (h : s.Endures rs) (hs : Host.Suffers opens ok (s, rs) (s', rs')) : s'.Endures rs' := by
  cases hs with
  | crash hc hd hleft =>
    obtain ⟨M, D, hendures⟩ := h
    exact (hendures.during (hok _ _ hc) hd _ hleft).2
  | crashOpen hc ho hleft =>
    obtain ⟨D, hD⟩ := h
    exact hD.opening ho hleft
  | moves hmoves =>
    cases hmoves with
    | «open» hc ho =>
      obtain ⟨D, hD⟩ := h
      obtain ⟨-, M, hendures⟩ := hD.endures ho
      exact ⟨M, M, hendures⟩
    | call hc =>
      obtain ⟨M, D, hendures⟩ := h
      exact (hendures.call (hok _ _ hc)).2
    | close =>
      obtain ⟨M, D, hendures⟩ := h
      obtain ⟨S, ps, q, htells⟩ := hendures.tells
      exact ⟨D, htells.close⟩

/-- Every directory a flush leads through can be read. -/
theorem Host.Loads.flushing {e : Engine} (h : Host.Loads (.up e)) {now : ℕ}
    (hc : e.OutputReadable (.flushOne now)) {d : Disk} (hd : d ∈ e.flushing now) :
    Host.Loads (.shut d) := by
  rw [Engine.flushing] at hd
  split at hd
  · cases hd
  rename_i target ht
  rcases List.mem_cons.mp hd with rfl | hd
  · exact h.disk
  split at hd
  · cases hd
  rename_i placed r hwrite
  have hbits := bits_writeSstable hwrite
  obtain ⟨rfl, -⟩ := writeSstable_eq hwrite now
  have hplaced := h.placeFile (hc.2 target ht) e.manifest.nextSstId
  rcases List.mem_cons.mp hd with rfl | hd
  · exact hplaced.disk
  have hsaved := hplaced.publishFlush (r.toMeta now)
    ((congrArg Double.isFinite hbits).trans (hc.1 target ht))
  split at hd
  · cases hd
  rename_i published u hpub
  obtain ⟨k, -, rfl⟩ := mem_removing.mp hd
  rw [hpub] at hsaved
  exact ⟨hsaved.1.stored, hsaved.2⟩

/-- Every directory a compaction leads through can be read. -/
theorem Host.Loads.compacting {e : Engine} (h : Host.Loads (.up e)) {inputs : Option (List ℕ)}
    {now created : ℕ} (hc : e.OutputReadable (.runCompaction inputs now created)) {d : Disk}
    (hd : d ∈ e.compacting inputs now created) : Host.Loads (.shut d) := by
  rw [Engine.compacting] at hd
  split at hd
  · cases hd
  split at hd
  · cases hd
  · cases hd
  rename_i ids hchoice
  split at hd
  · cases hd
  rename_i final rest hscan
  rcases List.mem_cons.mp hd with rfl | hd
  · exact h.disk
  split at hd
  · cases hd
  rename_i placed added hwrite
  obtain ⟨hplaced, hadded⟩ := h.writeOutput hc hchoice hscan hwrite
  rcases List.mem_cons.mp hd with rfl | hd
  · exact hplaced.disk
  have hsaved := hplaced.publishCompaction ids hadded
  split at hd
  · cases hd
  rename_i published removed hpub
  obtain ⟨k, -, rfl⟩ := List.mem_map.mp hd
  rw [hpub] at hsaved
  obtain ⟨files, hdeleted⟩ := deleteInputs_eq (removed.take k) published
  rw [hdeleted]
  exact ⟨hsaved.1.stored, hsaved.2⟩

theorem Host.Loads.during {e : Engine} (h : Host.Loads (.up e)) {c : Call}
    (hc : e.OutputReadable c) {d : Disk} {added : List Record} (hd : (d, added) ∈ e.during c) :
    Host.Loads (.shut d) := by
  have hwriting : ∀ del key value, (d, added) ∈ e.writing del key value →
      Host.Loads (.shut d) := by
    intro del key value hin
    rw [Engine.writing] at hin
    split at hin
    · cases hin
    · obtain ⟨p, -, heq⟩ := List.mem_map.mp hin
      obtain ⟨rfl, -⟩ := Prod.mk.inj heq
      exact h.disk
  rw [Engine.during, List.cons_append, List.mem_cons, List.mem_append, List.mem_singleton] at hd
  rcases hd with heq | hd | heq
  · obtain ⟨rfl, -⟩ := Prod.mk.inj heq
    exact h.disk
  · cases c with
    | put key value => exact hwriting false key value hd
    | remove key => exact hwriting true key [] hd
    | flushOne now =>
      obtain ⟨d', hin, heq⟩ := List.mem_map.mp hd
      obtain ⟨rfl, -⟩ := Prod.mk.inj heq
      exact h.flushing hc hin
    | runCompaction inputs now created =>
      obtain ⟨d', hin, heq⟩ := List.mem_map.mp hd
      obtain ⟨rfl, -⟩ := Prod.mk.inj heq
      exact h.compacting hc hin
  · obtain ⟨rfl, -⟩ := Prod.mk.inj heq
    have hafter : Host.Loads (.up (e.perform c)) :=
      ⟨h.1.perform hc.1, misindexed_perform h.2 hc.2⟩
    exact hafter.disk

theorem Host.Loads.suffers {opens : Config → Prop} {ok : Engine → Call → Prop}
    (hok : ∀ e c, ok e c → e.OutputReadable c) {s s' : Host} {rs rs' : List Record}
    (h : s.Loads) (hs : Host.Suffers opens ok (s, rs) (s', rs')) : s'.Loads := by
  cases hs with
  | moves hmoves => exact h.step hok hmoves.proceeds.step
  | crash hc hd hleft => exact hleft.loads (Host.Loads.during h (hok _ _ hc) hd)
  | crashOpen hc ho hleft => exact hleft.loads (ho.loads h)

/-- Sessions from an empty directory, each with settings of its own and ending in a close or a
crash. The store finds the last write of every key, less what the crashes took: each took fewer
acknowledged writes than come between two syncs, and those the last ones. -/
theorem reads_of_crashing {s : Host} {rs : List Record}
    (h : Host.Crashing (fun _ => True) Lasting (.shut {}, []) (s, rs)) :
    s.Reads rs ∧ s.LosesFew Orderly := by
  have hall : ∀ x y, Host.Crashing (fun _ => True) Lasting x y → x.1.Endures x.2 ∧ x.1.Loads →
      y.1.Endures y.2 ∧ y.1.Loads := by
    intro x y hxy hx
    induction hxy with
    | refl => exact hx
    | tail _ hlast ih =>
      exact ⟨ih.1.step (fun _ _ hc => hc.1) hlast, ih.2.suffers (fun _ _ hc => hc.2.1) hlast⟩
  obtain ⟨hs, hloads⟩ := hall _ _ h ⟨⟨[], disk_tells_empty⟩, Host.loads_empty⟩
  exact ⟨hs.reads hloads, hs.losesFew⟩

/-- Three puts, of which the last waits for a sync. -/
def putThree : List Call := [.put [97] [1], .put [98] [2], .put [99] [3]]

/-- A crash inside the fourth put takes it and the third. -/
theorem reads_of_crashing_putThree : ∃ e,
    Host.Crashing (fun _ => True) Lasting (.shut {}, [])
      (.up e, [⟨false, [97], [1], 1⟩, ⟨false, [98], [2], 2⟩]) ∧
    e.get [98] = .ok (some [2]) ∧ e.get [99] = .ok none := by
  have hstage : ((((Host.opened everyOther {}).performAll putThree).during
      (.put [100] [4]))[2]?).map (fun p => decide (Left p.1.wal p.1.synced.wal ∧
        (([] ++ (Host.opened everyOther {}).acceptedAll putThree) ++ p.2).rdrop
          (p.1.lost p.1.synced) = [⟨false, [97], [1], 1⟩, ⟨false, [98], [2], 2⟩] ∧
        ((Engine.open everyOther p.1.synced).map (fun _ => ())).isOk = true)) = some true := by
    decide +kernel
  obtain ⟨p, hp, hstage⟩ := Option.map_eq_some_iff.mp hstage
  obtain ⟨hleft, hrest, hok⟩ := of_decide_eq_true hstage
  rcases hopen : Engine.open everyOther p.1.synced with x | e
  · rw [hopen] at hok
    cases hok
  have hsession : Host.History (fun _ => True) Lasting (.shut {}, [])
      (.up ((Host.opened everyOther {}).performAll putThree),
        [] ++ (Host.opened everyOther {}).acceptedAll putThree) :=
    Host.history_session trivial (by decide +kernel) (by decide +kernel)
  have hcrash : Host.Suffers (fun _ => True) Lasting
      (.up ((Host.opened everyOther {}).performAll putThree),
        [] ++ (Host.opened everyOther {}).acceptedAll putThree)
      (.shut p.1.synced, (([] ++ (Host.opened everyOther {}).acceptedAll putThree) ++
        p.2).rdrop (p.1.lost p.1.synced)) :=
    .crash (c := .put [100] [4]) (by decide +kernel) (List.mem_of_getElem? hp) ⟨hleft, rfl⟩
  rw [hrest] at hcrash
  have hrun : Host.Crashing (fun _ => True) Lasting (.shut {}, [])
      (.up e, [⟨false, [97], [1], 1⟩, ⟨false, [98], [2], 2⟩]) :=
    ((hsession.lift id (fun _ _ hs => .moves hs)).tail hcrash).tail (.moves (.open trivial hopen))
  have hreads := (reads_of_crashing hrun).1
  exact ⟨e, hrun, hreads [98] (by decide), hreads [99] (by decide)⟩

end LsmKv
