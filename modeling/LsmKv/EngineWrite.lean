import LsmKv.EngineOpen
import LsmKv.WalLife

/-!
# What a write does

A write is refused and changes nothing, or its record goes to the end of the log and into the
active memtable, which may then rotate and roll the log.
-/

namespace LsmKv
open WalFormat OrderedMap

namespace WalLog

/-- `l'` is `l` with one record more, in the active segment or in a new one. -/
structure Appends (l l' : Wal Record) (r : Record) : Prop where
  intact : Intact l'
  isOpen : l'.isOpen = true
  lastSeqno : l'.lastSeqno = r.seqno
  segments : segments l'.dir = segments l.dir ++ [[r]] ∨
    ∃ init last, segments l.dir = init ++ [last] ∧ segments l'.dir = init ++ [last ++ [r]]

/-- `l'` is `l` with an empty active segment more. -/
structure Rolls (l l' : Wal Record) : Prop where
  intact : Intact l'
  isOpen : l'.isOpen = true
  lastSeqno : l'.lastSeqno = l.lastSeqno
  segments : segments l'.dir = segments l.dir ++ [[]]

theorem Appends.records {l l' : Wal Record} {r : Record} (h : Appends l l' r) :
    records l'.dir = records l.dir ++ [r] := by
  rw [← flatten_segments, ← flatten_segments]
  rcases h.segments with hnew | ⟨init, last, hold, hnew⟩
  · rw [hnew]
    simp
  · rw [hnew, hold]
    simp

/-- What holds of the records and of the new one. -/
theorem Appends.forall_records {l l' : Wal Record} {r : Record} (h : Appends l l' r)
    {P : Record → Prop} (hl : ∀ a ∈ WalLog.records l.dir, P a) (hr : P r) :
    ∀ a ∈ WalLog.records l'.dir, P a := by
  rw [h.records]
  exact List.forall_mem_append.mpr ⟨hl, List.forall_mem_singleton.mpr hr⟩

theorem Rolls.records {l l' : Wal Record} (h : Rolls l l') :
    records l'.dir = records l.dir := by
  rw [← flatten_segments, ← flatten_segments, h.segments]
  simp

theorem appends_appendRecord {l : Wal Record} (h : Intact l) (ho : l.isOpen = true) {r : Record}
    (hr : l.lastSeqno < r.seqno) : ∃ init last, segments l.dir = init ++ [last] ∧
      segments (appendRecord r l).dir = init ++ [last ++ [r]] ∧
      Appends l (appendRecord r l) r := by
  obtain ⟨pre, f, he, -⟩ := h.live
  have hold := segments_of_ends he
  have hnew := segments_of_ends (ends_appendRecord he r)
  rw [data_appended] at hnew
  refine ⟨_, _, hold, hnew, h.appendRecord hr, ?_, rfl, .inr ⟨_, _, hold, hnew⟩⟩
  rw [appendRecord_isOpen, ho]

theorem rolls_rollSegment {l : Wal Record} (h : Intact l) : Rolls l (rollSegment l) := by
  obtain ⟨pre, f, he, -⟩ := h.live
  refine ⟨h.rollSegment, rfl, rfl, ?_⟩
  rw [segments_of_ends (ends_rollSegment he), segments_of_ends he, List.map_append]
  rfl

theorem append_ok {l l' : Wal Record} (h : Intact l) {del : Bool} {key value : Bytes} {seqno : ℕ}
    (ha : append del key value l = (l', .ok seqno)) :
    seqno = l.lastSeqno + 1 ∧ Appends l l' ⟨del, key, value, seqno⟩ := by
  rw [append, appendAs] at ha
  rcases hc : Wal.checkAppend l.isOpen key value with x | u
  · rw [hc] at ha
    cases (Prod.mk.inj ha).2
  rw [hc] at ha
  obtain ⟨rfl, hseq⟩ := Prod.mk.inj ha
  obtain rfl := Except.ok.inj hseq
  refine ⟨rfl, ?_⟩
  split
  · have hroll := rolls_rollSegment h
    obtain ⟨init, last, hold, hnew, happ⟩ := appends_appendRecord hroll.intact hroll.isOpen
      (r := ⟨del, key, value, l.lastSeqno + 1⟩) (Nat.lt_succ_self _)
    obtain ⟨hinit, hlast⟩ := List.append_inj' (hold.symm.trans hroll.segments) rfl
    obtain rfl := List.singleton_inj.mp hlast
    refine ⟨happ.intact, happ.isOpen, rfl, .inl ?_⟩
    rw [hnew, hinit]
    rfl
  · obtain ⟨_, _, _, _, happ⟩ := appends_appendRecord h (isOpen_of_checkAppend hc)
      (r := ⟨del, key, value, l.lastSeqno + 1⟩) (Nat.lt_succ_self _)
    exact happ

theorem append_error {l l' : Wal Record} {del : Bool} {key value : Bytes} {x : Error}
    (ha : append del key value l = (l', .error x)) : l' = l := by
  rw [append, appendAs] at ha
  rcases hc : Wal.checkAppend l.isOpen key value with y | u
  · rw [hc] at ha
    exact (Prod.mk.inj ha).1.symm
  · rw [hc] at ha
    cases (Prod.mk.inj ha).2

theorem rolls_roll {l : Wal Record} (h : Intact l) (ho : l.isOpen = true) : Rolls l (roll l).1 := by
  rw [roll, ho]
  exact rolls_rollSegment h

end WalLog

/-! ## The engine's write -/

section
variable {e : Engine}

/-- A record was logged and applied. -/
structure Writes (e : Engine) (r : Record) (e' : Engine) : Prop where
  fresh : r.seqno = e.wal.lastSeqno + 1
  isOpen : e.closed = false
  capacity : e.ensureWriteCapacity = .ok ()
  applied : ∃ l, WalLog.Appends e.wal l r ∧
    ((¬(e.config.memtableMaxBytes ≤ (e.active.applyRecord r).bytes ∧
        e.immutables.length < e.config.maxImmutableTables) ∧
      e' = { e with wal := l, active := e.active.applyRecord r }) ∨
    ((e.config.memtableMaxBytes ≤ (e.active.applyRecord r).bytes ∧
        e.immutables.length < e.config.maxImmutableTables) ∧
      ∃ l', WalLog.Rolls l l' ∧ e' = { e with
        wal := l'
        active := .fresh e.config.overheadBytesPerEntry
        immutables := e.active.applyRecord r :: e.immutables
        version := ⟨e.active.applyRecord r :: e.immutables, e.readers⟩ }))

/-- A write is refused, or its record reaches the log and the memtables. -/
theorem write_cases (h : WalLog.Intact e.wal) (del : Bool) (key value : Bytes) :
    (∃ x, e.write del key value = (e, .error x)) ∨
    ∃ r e', r.del = del ∧ r.key = key ∧ r.value = value ∧ Writes e r e' ∧
      e.write del key value = (e', .ok r.seqno) := by
  rw [Engine.write]
  rcases hopen : e.ensureOpen with x | u
  · exact .inl ⟨x, rfl⟩
  dsimp only
  split
  · exact .inl ⟨_, rfl⟩
  rcases hcap : e.ensureWriteCapacity with x | u
  · exact .inl ⟨x, rfl⟩
  rcases happend : WalLog.append del key value e.wal with ⟨l, x | seqno⟩
  · obtain rfl := WalLog.append_error happend
    exact .inl ⟨x, rfl⟩
  obtain ⟨rfl, happ⟩ := WalLog.append_ok h happend
  have hclosed : e.closed = false := by
    rw [Engine.ensureOpen] at hopen
    split at hopen
    · cases hopen
    · simpa using ‹¬e.closed = true›
  refine .inr ⟨⟨del, key, value, e.wal.lastSeqno + 1⟩, _, rfl, rfl, rfl,
    ⟨rfl, hclosed, hcap, l, happ, ?_⟩, rfl⟩
  rcases Engine.applyMutation_cases false { e with wal := l }
    ⟨del, key, value, e.wal.lastSeqno + 1⟩ with ⟨hstay, heq⟩ | ⟨hdue, heq⟩
  · exact .inl ⟨hstay, heq⟩
  · exact .inr ⟨hdue, _, WalLog.rolls_roll happ.intact happ.isOpen, heq⟩

end

end LsmKv
