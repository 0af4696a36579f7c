import Mathlib.Data.List.Basic
import Mathlib.Logic.Relation

/-!
# A stalled writer at shutdown

`close`, a writer in `ensure_write_capacity` and the flush worker, step by step over
`state_mutex_` and `state_cv_`. The writer's wait is split into the test of its predicate and the
block, between which it holds the mutex; the other critical sections are one step each. The flags
are atomics and set outside the mutex, and so are most notifications.
-/

namespace LsmKv
namespace Shutdown

/-- Where the writer is in `put` or `remove`. -/
inductive WriterAt where
  | outside
  /-- `ensure_open` is passed and `state_mutex_` is next -/
  | entering
  | deciding
  /-- at the predicate of the wait -/
  | testing
  /-- the predicate was false -/
  | tested
  | blocked
  | woken
  /-- the wait is over -/
  | released
  | writing
  /-- in `maybe_rotate` with a full table -/
  | rotating
  deriving DecidableEq

inductive Flusher where
  | worker
  | closer
  deriving DecidableEq

/-- Where `flush_one` is. It holds `creation_mutex_`. -/
inductive FlushAt where
  | picking
  | writing
  | publishing
  | notifying
  | cleaning
  deriving DecidableEq

inductive WorkerAt where
  | top
  | waiting
  | tested (had_work : Bool)
  | flushing
  | bottom
  | exited
  deriving DecidableEq

/-- Where `close` is, in `stop_workers` from `stopping` on. -/
inductive CloserAt where
  | outside
  /-- `shutting_down_` is set and the notification is next -/
  | announced
  | draining
  | stopping
  /-- `stop_workers_` is set and the notification is next -/
  | notifying
  | joining
  | stopped
  | thrown
  deriving DecidableEq

structure State where
  maxImmutables : ℕ
  immutables : ℕ
  activeFull : Bool
  shuttingDown : Bool := false
  stopWorkers : Bool := false
  workersRunning : Bool := true
  graceful : Bool := false
  writer : WriterAt := .outside
  flush : Option (Flusher × FlushAt) := none
  worker : WorkerAt := .top
  closer : CloserAt := .outside
  deriving DecidableEq

inductive Action where
  /-- `full` says what an applied mutation makes of the active table -/
  | writer (full : Bool)
  /-- too many tables, or the append fails -/
  | writerThrows
  | spurious
  | enterFlush (f : Flusher)
  | flush
  | flushThrows
  | worker
  | closer (graceful : Bool)
  deriving DecidableEq

namespace State

/-- The predicate of the writer's wait. -/
def released (s : State) : Bool :=
  s.shuttingDown || s.stopWorkers || decide (s.immutables < s.maxImmutables)

/-- The writer holds `state_mutex_`. -/
def locked (s : State) : Bool :=
  s.writer ∈ [WriterAt.deciding, .testing, .tested, .released]

/-- `state_cv_.notify_all()`, as far as the writer is concerned. -/
def notifyAll (s : State) : State :=
  if s.writer = .blocked then { s with writer := .woken } else s

@[simp] theorem notifyAll_shuttingDown (s : State) :
    s.notifyAll.shuttingDown = s.shuttingDown := by
  rw [notifyAll]
  split <;> rfl

@[simp] theorem notifyAll_graceful (s : State) : s.notifyAll.graceful = s.graceful := by
  rw [notifyAll]
  split <;> rfl

@[simp] theorem notifyAll_closer (s : State) : s.notifyAll.closer = s.closer := by
  rw [notifyAll]
  split <;> rfl

/-! ## The writer -/

def stepWriter (full : Bool) (s : State) : Option State :=
  match s.writer with
  | .outside => if s.shuttingDown then none else some { s with writer := .entering }
  | .entering => some { s with writer := .deciding }
  | .deciding =>
    if s.activeFull ∧ s.maxImmutables ≤ s.immutables then
      some { s with writer := if s.workersRunning then .testing else .outside }
    else some { s with writer := .writing }
  | .testing => some { s with writer := if s.released then .released else .tested }
  | .tested => some { s with writer := .blocked }
  | .blocked => none
  | .woken => some { s with writer := .testing }
  | .released =>
    some { s with writer := if s.shuttingDown ∨ s.stopWorkers then .outside else .writing }
  | .writing =>
    some { s with activeFull := full, writer := if full then .rotating else .outside }
  | .rotating =>
    if s.maxImmutables ≤ s.immutables then some { s with writer := .outside }
    else some { s with
      immutables := s.immutables + 1
      activeFull := false
      writer := .outside }

def stepWriterThrows (s : State) : Option State :=
  match s.writer with
  | .deciding | .writing => some { s with writer := .outside }
  | _ => none

def stepSpurious (s : State) : Option State :=
  if s.writer = .blocked then some { s with writer := .woken } else none

/-! ## flush_one -/

def stepEnterFlush (f : Flusher) (s : State) : Option State :=
  if s.flush = none ∧ (f = .worker → s.worker = .flushing) ∧ (f = .closer → s.closer = .draining)
  then some { s with flush := some (f, .picking) }
  else none

/-- `flush_one` returns. The worker goes on with its loop, and `close` flushes again if there
was something to flush. -/
def endFlush (f : Flusher) (flushed : Bool) (s : State) : State :=
  match f with
  | .worker => { s with flush := none, worker := .bottom }
  | .closer => { s with flush := none, closer := if flushed then .draining else .stopping }

def stepFlush (s : State) : Option State :=
  match s.flush with
  | none => none
  | some (f, .picking) =>
    if s.locked then none
    else if s.immutables = 0 then some (s.endFlush f false)
    else some { s with flush := some (f, .writing) }
  | some (f, .writing) => some { s with flush := some (f, .publishing) }
  | some (f, .publishing) =>
    if s.locked then none
    else some { s with immutables := s.immutables - 1, flush := some (f, .notifying) }
  | some (f, .notifying) => some { s.notifyAll with flush := some (f, .cleaning) }
  | some (f, .cleaning) => if s.locked then none else some (s.endFlush f true)

/-- `flush_one` throws. The worker has a handler, `close` has none. -/
def stepFlushThrows (s : State) : Option State :=
  match s.flush with
  | some (.worker, .writing) | some (.worker, .publishing) | some (.worker, .cleaning) =>
    some { s with flush := none, worker := .bottom }
  | some (.closer, .writing) | some (.closer, .publishing) | some (.closer, .cleaning) =>
    some { s with flush := none, closer := .thrown }
  | _ => none

/-! ## The worker and close -/

/-- One step of `flush_worker_loop`. Its wait may end at any time, since it is timed. -/
def stepWorker (s : State) : Option State :=
  match s.worker with
  | .top => some { s with worker := if s.stopWorkers then .exited else .waiting }
  | .waiting =>
    if s.locked then none else some { s with worker := .tested (decide (s.immutables ≠ 0)) }
  | .tested had_work =>
    some { s with worker :=
      if s.stopWorkers ∧ had_work = false then .exited
      else if had_work then .flushing else .bottom }
  | .flushing => none
  | .bottom => some { s with worker := if s.stopWorkers then .exited else .top }
  | .exited => none

def stepCloser (graceful : Bool) (s : State) : Option State :=
  match s.closer with
  | .outside =>
    some { s with shuttingDown := true, graceful := graceful, closer := .announced }
  | .announced =>
    some { s.notifyAll with closer := if s.graceful then .draining else .stopping }
  | .draining => none
  | .stopping => some { s with stopWorkers := true, closer := .notifying }
  | .notifying => some { s.notifyAll with closer := .joining }
  | .joining =>
    if s.worker = .exited then some { s with workersRunning := false, closer := .stopped }
    else none
  | .stopped | .thrown => none

def step (s : State) : Action → Option State
  | .writer full => s.stepWriter full
  | .writerThrows => s.stepWriterThrows
  | .spurious => s.stepSpurious
  | .enterFlush f => s.stepEnterFlush f
  | .flush => s.stepFlush
  | .flushThrows => s.stepFlushThrows
  | .worker => s.stepWorker
  | .closer graceful => s.stepCloser graceful

/-- Some actions one after the other, when each is possible and meets the condition. -/
def replay (ok : State → Action → Prop) [∀ s a, Decidable (ok s a)] :
    List Action → State → Option State
  | [], s => some s
  | a :: as, s => if ok s a then (s.step a).bind (replay ok as) else none

/-- Any number of queued tables, and workers that run. -/
def start (max_immutables immutables : ℕ) (active_full : Bool) : State where
  maxImmutables := max_immutables
  immutables := immutables
  activeFull := active_full

/-- Steps that each meet the condition where they come. -/
abbrev Runs (ok : State → Action → Prop) : State → State → Prop :=
  Relation.ReflTransGen (fun s s' => ∃ a, ok s a ∧ s.step a = some s')

/-! ## The property -/

/-- The step calls `notify_all`. -/
def Notifies (s : State) : Action → Prop
  | .writer _ => s.writer = .rotating ∧ s.immutables < s.maxImmutables
  | .flush => ∃ f, s.flush = some (f, .notifying)
  | .closer _ => s.closer = .announced ∨ s.closer = .notifying
  | _ => False

/-- `stop_workers` has returned, nobody will notify again, and the writer is blocked although
its predicate is true. -/
structure Lost (s : State) : Prop where
  stopped : s.closer = .stopped
  silent : ∀ s', Runs (fun _ _ => True) s s' → ∀ a, s'.Notifies a → s'.step a = none
  blocked : s.writer = .blocked
  released : s.released = true

/-- On a fast close the notification of `stop_workers` does not come between the writer's test
and its block. -/
def Meets (s : State) : Action → Prop
  | .closer _ => s.closer = .notifying → s.graceful = false → s.writer ≠ .tested
  | _ => True

/-- The predicate was false, and no notification has come since. -/
def Waits (s : State) : Prop := s.writer = .tested ∨ s.writer = .blocked

/-- A writer that waits has a slot to come, or its notification. -/
structure Sound (s : State) : Prop where
  pos : 1 ≤ s.maxImmutables
  announced : s.closer ≠ .outside → s.shuttingDown = true
  flusher : ∀ stage, s.flush = some (.closer, stage) → s.closer = .draining
  draining : s.closer = .draining → s.graceful = true
  tested : s.writer = .tested → s.maxImmutables ≤ s.immutables
  blocked : s.writer = .blocked →
    s.maxImmutables ≤ s.immutables ∨ ∃ f, s.flush = some (f, .notifying)
  drained : s.graceful = true → s.closer = .stopping ∨ s.closer = .notifying → ¬s.Waits
  notified : s.closer = .joining ∨ s.closer = .stopped → ¬s.Waits

variable {s s' : State}

theorem Sound.start {m : ℕ} (hm : 1 ≤ m) (n : ℕ) (full : Bool) : (start m n full).Sound where
  pos := hm
  announced := fun h => absurd rfl h
  flusher := nofun
  draining := nofun
  tested := nofun
  blocked := nofun
  drained := fun _ h => by rcases h with h | h <;> cases h
  notified := fun h => by rcases h with h | h <;> cases h

/-- The writer comes to wait only by the test of its predicate. -/
theorem stepWriter_cases {full : Bool} (hs : s.stepWriter full = some s') :
    (∃ w n active_full, w ≠ .tested ∧ w ≠ .blocked ∧
      s' = { s with immutables := n, activeFull := active_full, writer := w }) ∨
    (s.released = false ∧ s' = { s with writer := .tested }) ∨
    (s.writer = .tested ∧ s' = { s with writer := .blocked }) := by
  rw [stepWriter] at hs
  split at hs
  · split at hs
    · cases hs
    · exact .inl ⟨.entering, _, _, nofun, nofun, (Option.some.inj hs).symm⟩
  · exact .inl ⟨.deciding, _, _, nofun, nofun, (Option.some.inj hs).symm⟩
  · split at hs
    · refine .inl ⟨_, _, _, ?_, ?_, (Option.some.inj hs).symm⟩ <;> split <;> nofun
    · exact .inl ⟨.writing, _, _, nofun, nofun, (Option.some.inj hs).symm⟩
  · split at hs
    · exact .inl ⟨.released, _, _, nofun, nofun, (Option.some.inj hs).symm⟩
    · rename_i hreleased
      exact .inr (.inl ⟨by simpa using hreleased, (Option.some.inj hs).symm⟩)
  · rename_i htested
    exact .inr (.inr ⟨htested, (Option.some.inj hs).symm⟩)
  · cases hs
  · exact .inl ⟨.testing, _, _, nofun, nofun, (Option.some.inj hs).symm⟩
  · refine .inl ⟨_, _, _, ?_, ?_, (Option.some.inj hs).symm⟩ <;> split <;> nofun
  · refine .inl ⟨_, _, _, ?_, ?_, (Option.some.inj hs).symm⟩ <;> split <;> nofun
  · split at hs
    · exact .inl ⟨.outside, _, _, nofun, nofun, (Option.some.inj hs).symm⟩
    · exact .inl ⟨.outside, _, _, nofun, nofun, (Option.some.inj hs).symm⟩

/-- The writer goes where it does not wait, and may have rotated. -/
theorem Sound.moveWriter (h : s.Sound) {w : WriterAt} (htested : w ≠ .tested)
    (hblocked : w ≠ .blocked) (n : ℕ) (full : Bool) :
    ({ s with immutables := n, activeFull := full, writer := w } : State).Sound where
  pos := h.pos
  announced := h.announced
  flusher := h.flusher
  draining := h.draining
  tested := fun heq => absurd heq htested
  blocked := fun heq => absurd heq hblocked
  drained := fun _ _ hwaits => hwaits.elim htested hblocked
  notified := fun _ hwaits => hwaits.elim htested hblocked

/-- The predicate is false only before `close`, and with the queue full. -/
theorem Sound.of_not_released (h : s.Sound) (hs : s.released = false) :
    s.closer = .outside ∧ s.maxImmutables ≤ s.immutables := by
  rw [State.released, Bool.or_eq_false_iff, Bool.or_eq_false_iff] at hs
  obtain ⟨⟨hshutting, -⟩, hslot⟩ := hs
  refine ⟨?_, Nat.le_of_not_lt (of_decide_eq_false hslot)⟩
  by_contra hclosing
  rw [h.announced hclosing] at hshutting
  cases hshutting

theorem Sound.writer (h : s.Sound) {full : Bool} (hs : s.stepWriter full = some s') :
    s'.Sound := by
  obtain ⟨w, n, active_full, htested, hblocked, rfl⟩ | ⟨hreleased, rfl⟩ | ⟨htested, rfl⟩ :=
    stepWriter_cases hs
  · exact h.moveWriter htested hblocked n active_full
  · obtain ⟨houtside, hfull⟩ := h.of_not_released hreleased
    refine ⟨h.pos, h.announced, h.flusher, h.draining, fun _ => hfull, nofun,
      fun _ hcloser => ?_, fun hcloser => ?_⟩
    · rcases hcloser with hcloser | hcloser <;> cases houtside.symm.trans hcloser
    · rcases hcloser with hcloser | hcloser <;> cases houtside.symm.trans hcloser
  · exact ⟨h.pos, h.announced, h.flusher, h.draining, nofun, fun _ => .inl (h.tested htested),
      fun hgraceful hcloser _ => h.drained hgraceful hcloser (.inl htested),
      fun hcloser _ => h.notified hcloser (.inl htested)⟩

theorem Sound.writerThrows (h : s.Sound) (hs : s.stepWriterThrows = some s') : s'.Sound := by
  rw [stepWriterThrows] at hs
  split at hs
  · exact Option.some.inj hs ▸
      h.moveWriter (w := .outside) nofun nofun s.immutables s.activeFull
  · exact Option.some.inj hs ▸
      h.moveWriter (w := .outside) nofun nofun s.immutables s.activeFull
  · cases hs

theorem Sound.spurious (h : s.Sound) (hs : s.stepSpurious = some s') : s'.Sound := by
  rw [stepSpurious] at hs
  split at hs
  · exact Option.some.inj hs ▸ h.moveWriter (w := .woken) nofun nofun s.immutables s.activeFull
  · cases hs

/-! ## Flushes -/

/-- `flush_one` goes on, and no slot has been freed since the last notification. -/
theorem Sound.moveFlush (h : s.Sound) {f : Flusher} {stage stage' : FlushAt}
    (hflush : s.flush = some (f, stage)) (hstage : stage ≠ .notifying) :
    ({ s with flush := some (f, stage') } : State).Sound where
  pos := h.pos
  announced := h.announced
  flusher := fun at_ heq => h.flusher stage (by rw [hflush, (Prod.mk.inj (Option.some.inj heq)).1])
  draining := h.draining
  tested := h.tested
  blocked := fun heq => by
    rcases h.blocked heq with hfull | ⟨f', hnotifying⟩
    · exact .inl hfull
    · cases hflush.symm.trans hnotifying
      exact absurd rfl hstage
  drained := h.drained
  notified := h.notified

/-- Nobody is blocked after a notification, and who has tested goes on to block. -/
theorem Sound.notify (h : s.Sound) {f : Flusher} (hflush : s.flush = some (f, .notifying)) :
    ({ s.notifyAll with flush := some (f, .cleaning) } : State).Sound := by
  have hclosed : ∀ stage, some (f, FlushAt.cleaning) = some (.closer, stage) →
      s.closer = .draining := by
    intro stage heq
    obtain rfl := (Prod.mk.inj (Option.some.inj heq)).1
    exact h.flusher _ hflush
  rw [notifyAll]
  split
  · have hwoken := h.moveWriter (w := .woken) nofun nofun s.immutables s.activeFull
    exact ⟨h.pos, h.announced, hclosed, h.draining, nofun, nofun, hwoken.drained, hwoken.notified⟩
  · rename_i hblocked
    exact ⟨h.pos, h.announced, hclosed, h.draining, h.tested, fun heq => absurd heq hblocked,
      h.drained, h.notified⟩

theorem Sound.endFlush (h : s.Sound) {f : Flusher} {stage : FlushAt}
    (hflush : s.flush = some (f, stage)) (hstage : stage ≠ .notifying) (flushed : Bool)
    (hdrained : flushed = false → ¬s.Waits) : (s.endFlush f flushed).Sound := by
  have hblocked : s.writer = .blocked → s.maxImmutables ≤ s.immutables := by
    intro heq
    rcases h.blocked heq with hfull | ⟨f', hnotifying⟩
    · exact hfull
    · cases hflush.symm.trans hnotifying
      exact absurd rfl hstage
  cases f with
  | worker =>
    exact ⟨h.pos, h.announced, nofun, h.draining, h.tested, fun heq => .inl (hblocked heq),
      h.drained, h.notified⟩
  | closer =>
    have hdraining := h.flusher stage hflush
    have hshutting := h.announced (by rw [hdraining]; nofun)
    refine ⟨h.pos, fun _ => hshutting, nofun, fun _ => h.draining hdraining, h.tested,
      fun heq => .inl (hblocked heq), fun _ hcloser => ?_, fun hcloser => ?_⟩
    · cases flushed with
      | false => exact hdrained rfl
      | true => rcases hcloser with hcloser | hcloser <;> cases hcloser
    · cases flushed <;> rcases hcloser with hcloser | hcloser <;> cases hcloser

theorem Sound.flush (h : s.Sound) (hs : s.stepFlush = some s') : s'.Sound := by
  rw [stepFlush] at hs
  split at hs
  · cases hs
  · rename_i f hflush
    split at hs
    · cases hs
    split at hs
    · rename_i hempty
      obtain rfl := Option.some.inj hs
      refine h.endFlush hflush nofun false (fun _ hwaits => ?_)
      have hpos := h.pos
      rcases hwaits with htested | hblocked
      · have := h.tested htested
        omega
      · rcases h.blocked hblocked with hfull | ⟨f', hnotifying⟩
        · omega
        · cases hflush.symm.trans hnotifying
    · exact Option.some.inj hs ▸ h.moveFlush hflush nofun
  · rename_i f hflush
    exact Option.some.inj hs ▸ h.moveFlush hflush nofun
  · rename_i f hflush
    split at hs
    · cases hs
    · rename_i hunlocked
      obtain rfl := Option.some.inj hs
      refine ⟨h.pos, h.announced, fun at_ heq => ?_, h.draining, fun htested => ?_,
        fun _ => .inr ⟨f, rfl⟩, h.drained, h.notified⟩
      · obtain rfl := (Prod.mk.inj (Option.some.inj heq)).1
        exact h.flusher _ hflush
      · have htested : s.writer = .tested := htested
        simp [locked, htested] at hunlocked
  · rename_i f hflush
    exact Option.some.inj hs ▸ h.notify hflush
  · rename_i f hflush
    split at hs
    · cases hs
    · exact Option.some.inj hs ▸ h.endFlush hflush nofun true nofun

theorem Sound.throw (h : s.Sound) {stage : FlushAt} (hflush : s.flush = some (.closer, stage))
    (hstage : stage ≠ .notifying) :
    ({ s with flush := none, closer := .thrown } : State).Sound := by
  have hshutting := h.announced (by rw [h.flusher stage hflush]; nofun)
  refine ⟨h.pos, fun _ => hshutting, nofun, nofun, h.tested, fun heq => ?_,
    fun _ hcloser => ?_, fun hcloser => ?_⟩
  · rcases h.blocked heq with hfull | ⟨f', hnotifying⟩
    · exact .inl hfull
    · cases hflush.symm.trans hnotifying
      exact absurd rfl hstage
  · rcases hcloser with hcloser | hcloser <;> cases hcloser
  · rcases hcloser with hcloser | hcloser <;> cases hcloser

theorem Sound.flushThrows (h : s.Sound) (hs : s.stepFlushThrows = some s') : s'.Sound := by
  rw [stepFlushThrows] at hs
  split at hs
  · rename_i hflush
    exact Option.some.inj hs ▸ h.endFlush hflush nofun true nofun
  · rename_i hflush
    exact Option.some.inj hs ▸ h.endFlush hflush nofun true nofun
  · rename_i hflush
    exact Option.some.inj hs ▸ h.endFlush hflush nofun true nofun
  · rename_i hflush
    exact Option.some.inj hs ▸ h.throw hflush nofun
  · rename_i hflush
    exact Option.some.inj hs ▸ h.throw hflush nofun
  · rename_i hflush
    exact Option.some.inj hs ▸ h.throw hflush nofun
  · cases hs

theorem Sound.enterFlush (h : s.Sound) {f : Flusher} (hs : s.stepEnterFlush f = some s') :
    s'.Sound := by
  rw [stepEnterFlush] at hs
  split at hs
  · rename_i hfree
    obtain ⟨hnone, -, hcloser⟩ := hfree
    obtain rfl := Option.some.inj hs
    refine ⟨h.pos, h.announced, fun stage heq => hcloser (Prod.mk.inj (Option.some.inj heq)).1,
      h.draining, h.tested, fun heq => ?_, h.drained, h.notified⟩
    rcases h.blocked heq with hfull | ⟨f', hnotifying⟩
    · exact .inl hfull
    · cases hnone.symm.trans hnotifying
  · cases hs

/-! ## The worker and close -/

theorem Sound.worker (h : s.Sound) (hs : s.stepWorker = some s') : s'.Sound := by
  have hmove : ∀ w, ({ s with worker := w } : State).Sound := fun w =>
    ⟨h.pos, h.announced, h.flusher, h.draining, h.tested, h.blocked, h.drained, h.notified⟩
  rw [stepWorker] at hs
  split at hs
  · exact Option.some.inj hs ▸ hmove _
  · split at hs
    · cases hs
    · exact Option.some.inj hs ▸ hmove _
  · exact Option.some.inj hs ▸ hmove _
  · cases hs
  · exact Option.some.inj hs ▸ hmove _
  · cases hs

/-- A notification leaves nobody waiting but who has tested and not yet blocked. -/
theorem not_waits_notifyAll (htested : s.writer ≠ .tested) : ¬s.notifyAll.Waits := by
  rw [notifyAll]
  split
  · exact fun hwaits => hwaits.elim nofun nofun
  · rename_i hblocked
    exact fun hwaits => hwaits.elim htested hblocked

theorem Sound.notifyAll (h : s.Sound) : s.notifyAll.Sound := by
  rw [State.notifyAll]
  split
  · exact h.moveWriter (w := .woken) nofun nofun s.immutables s.activeFull
  · exact h

/-- `close` goes on. -/
theorem Sound.moveCloser (h : s.Sound) {c : CloserAt} (hshutting : s.shuttingDown = true)
    (hclosed : s.closer ≠ .draining) (hdraining : c = .draining → s.graceful = true)
    (hdrained : s.graceful = true → c = .stopping ∨ c = .notifying → ¬s.Waits)
    (hnotified : c = .joining ∨ c = .stopped → ¬s.Waits) (stop running : Bool) :
    ({ s with stopWorkers := stop, workersRunning := running, closer := c } : State).Sound where
  pos := h.pos
  announced := fun _ => hshutting
  flusher := fun stage hflush => absurd (h.flusher stage hflush) hclosed
  draining := hdraining
  tested := h.tested
  blocked := h.blocked
  drained := hdrained
  notified := hnotified

theorem Sound.closer (h : s.Sound) {graceful : Bool} (hok : s.Meets (.closer graceful))
    (hs : s.stepCloser graceful = some s') : s'.Sound := by
  rw [stepCloser] at hs
  split at hs
  · rename_i hat
    obtain rfl := Option.some.inj hs
    have hdraining : s.closer ≠ .draining := by rw [hat]; nofun
    refine ⟨h.pos, fun _ => rfl, fun stage hflush => absurd (h.flusher stage hflush) hdraining,
      nofun, h.tested, h.blocked, fun _ hc => ?_, fun hc => ?_⟩ <;>
      rcases hc with hc | hc <;> cases hc
  · rename_i hat
    have hmove := h.notifyAll.moveCloser
      (c := if s.graceful then .draining else .stopping)
      (by simpa using h.announced (by rw [hat]; nofun))
      (by rw [notifyAll_closer, hat]; nofun)
      (fun hc => by
        rw [notifyAll_graceful]
        by_contra hfast
        rw [if_neg hfast] at hc
        cases hc)
      (fun hg hc => by
        rw [notifyAll_graceful] at hg
        rw [if_pos hg] at hc
        rcases hc with hc | hc <;> cases hc)
      (fun hc => by split at hc <;> rcases hc with hc | hc <;> cases hc)
      s.notifyAll.stopWorkers s.notifyAll.workersRunning
    exact Option.some.inj hs ▸ hmove
  · cases hs
  · rename_i hat
    have hmove := h.moveCloser (c := .notifying) (h.announced (by rw [hat]; nofun))
      (by rw [hat]; nofun) nofun (fun hg _ => h.drained hg (.inl hat))
      (fun hc => by rcases hc with hc | hc <;> cases hc) true s.workersRunning
    exact Option.some.inj hs ▸ hmove
  · rename_i hat
    have htested : s.writer ≠ .tested := by
      cases hg : s.graceful with
      | false => exact hok hat hg
      | true => exact fun htested => h.drained hg (.inr hat) (.inl htested)
    have hmove := h.notifyAll.moveCloser (c := .joining)
      (by simpa using h.announced (by rw [hat]; nofun)) (by rw [notifyAll_closer, hat]; nofun) nofun
      (fun _ hc => by rcases hc with hc | hc <;> cases hc)
      (fun _ => not_waits_notifyAll htested) s.notifyAll.stopWorkers s.notifyAll.workersRunning
    exact Option.some.inj hs ▸ hmove
  · rename_i hat
    split at hs
    · have hmove := h.moveCloser (c := .stopped) (h.announced (by rw [hat]; nofun))
        (by rw [hat]; nofun) nofun (fun _ hc => by rcases hc with hc | hc <;> cases hc)
        (fun _ => h.notified (.inl hat)) s.stopWorkers false
      exact Option.some.inj hs ▸ hmove
    · cases hs
  · cases hs
  · cases hs

/-! ## Runs -/

theorem Sound.step (h : s.Sound) {a : Action} (hok : s.Meets a) (hs : s.step a = some s') :
    s'.Sound := by
  cases a with
  | writer full => exact h.writer hs
  | writerThrows => exact h.writerThrows hs
  | spurious => exact h.spurious hs
  | enterFlush f => exact h.enterFlush hs
  | flush => exact h.flush hs
  | flushThrows => exact h.flushThrows hs
  | worker => exact h.worker hs
  | closer graceful => exact h.closer hok hs

theorem Sound.runs (h : s.Sound) (hrun : Runs Meets s s') : s'.Sound := by
  induction hrun with
  | refl => exact h
  | tail _ hstep ih =>
    obtain ⟨a, hok, hs⟩ := hstep
    exact ih.step hok hs

theorem runs_of_replay {ok : State → Action → Prop} [∀ s a, Decidable (ok s a)]
    {as : List Action} (h : replay ok as s = some s') : Runs ok s s' := by
  induction as generalizing s with
  | nil => exact Option.some.inj h ▸ .refl
  | cons a as ih =>
    rw [replay] at h
    split at h
    · rename_i hok
      obtain ⟨s₁, hs, h⟩ := Option.bind_eq_some_iff.mp h
      exact .head ⟨a, hok, hs⟩ (ih h)
    · cases h

/-- A writer is not lost when no notification of a fast `stop_workers` comes between the test of
its predicate and its block. -/
theorem writer_released {m : ℕ} (hm : 1 ≤ m) (n : ℕ) (full : Bool)
    (hrun : Runs Meets (start m n full) s) : ¬s.Lost := by
  intro hlost
  have hsound := (Sound.start hm n full).runs hrun
  exact hsound.notified (.inr hlost.stopped) (.inr hlost.blocked)

instance (s : State) (a : Action) : Decidable (s.Meets a) := by
  cases a <;> unfold Meets <;> infer_instance

/-- A fast close that finds the writer blocked. -/
def wokenRun : List Action :=
  List.replicate 5 (.writer true) ++ List.replicate 4 (.closer false) ++ [.worker, .closer false]

theorem writer_released_wokenRun :
    ∃ s, replay Meets wokenRun (start 1 1 true) = some s ∧ s.closer = .stopped ∧ ¬s.Lost := by
  obtain ⟨s, hs, hstopped⟩ : ∃ s, replay Meets wokenRun (start 1 1 true) = some s ∧
      s.closer = .stopped := ⟨_, rfl, rfl⟩
  exact ⟨s, hs, hstopped, writer_released (Nat.le_refl 1) 1 true (runs_of_replay hs)⟩

/-! ## The lost wakeup -/

/-- All is over but for a writer that may still wake up on its own. -/
structure Finished (s : State) : Prop where
  closer : s.closer = .stopped
  worker : s.worker = .exited
  flush : s.flush = none
  shuttingDown : s.shuttingDown = true
  writer_mem : s.writer ∈ [WriterAt.blocked, .woken, .testing, .released, .outside]

theorem Finished.moveWriter (h : s.Finished) {w : WriterAt}
    (hw : w ∈ [WriterAt.blocked, .woken, .testing, .released, .outside]) :
    ({ s with writer := w } : State).Finished :=
  ⟨h.closer, h.worker, h.flush, h.shuttingDown, hw⟩

theorem Finished.writer (h : s.Finished) {full : Bool} (hs : s.stepWriter full = some s') :
    s'.Finished := by
  have hreleased : s.released = true := by
    rw [released, h.shuttingDown]
    rfl
  have hw : s.writer = .blocked ∨ s.writer = .woken ∨ s.writer = .testing ∨
      s.writer = .released ∨ s.writer = .outside := by simpa using h.writer_mem
  rw [stepWriter] at hs
  rcases hw with hw | hw | hw | hw | hw
  · rw [hw] at hs
    cases hs
  · rw [hw] at hs
    exact Option.some.inj hs ▸ h.moveWriter (by decide)
  · rw [hw, hreleased] at hs
    exact Option.some.inj hs ▸ h.moveWriter (by decide)
  · rw [hw] at hs
    obtain rfl := Option.some.inj hs
    refine h.moveWriter ?_
    rw [if_pos (.inl h.shuttingDown)]
    decide
  · rw [hw, h.shuttingDown] at hs
    cases hs

theorem Finished.step (h : s.Finished) {a : Action} (hs : s.step a = some s') : s'.Finished := by
  cases a with
  | writer full => exact h.writer hs
  | writerThrows =>
    change s.stepWriterThrows = some s' at hs
    have hw := h.writer_mem
    rw [stepWriterThrows] at hs
    split at hs
    · rename_i hat
      rw [hat] at hw
      exact absurd hw (by decide)
    · rename_i hat
      rw [hat] at hw
      exact absurd hw (by decide)
    · cases hs
  | spurious =>
    change s.stepSpurious = some s' at hs
    rw [stepSpurious] at hs
    split at hs
    · exact Option.some.inj hs ▸ h.moveWriter (by decide)
    · cases hs
  | enterFlush f =>
    change s.stepEnterFlush f = some s' at hs
    rw [stepEnterFlush, h.worker, h.closer] at hs
    cases f <;> simp at hs
  | flush =>
    change s.stepFlush = some s' at hs
    rw [stepFlush, h.flush] at hs
    cases hs
  | flushThrows =>
    change s.stepFlushThrows = some s' at hs
    rw [stepFlushThrows, h.flush] at hs
    cases hs
  | worker =>
    change s.stepWorker = some s' at hs
    rw [stepWorker, h.worker] at hs
    cases hs
  | closer graceful =>
    change s.stepCloser graceful = some s' at hs
    rw [stepCloser, h.closer] at hs
    cases hs

theorem Finished.not_notifies (h : s.Finished) (a : Action) : ¬s.Notifies a := by
  cases a with
  | writer full =>
    rintro ⟨hrotating, -⟩
    have hwriter := h.writer_mem
    rw [hrotating] at hwriter
    revert hwriter
    decide
  | flush =>
    rintro ⟨f, hflush⟩
    cases h.flush.symm.trans hflush
  | closer graceful =>
    rintro (hcloser | hcloser) <;> cases h.closer.symm.trans hcloser
  | writerThrows | spurious | enterFlush | flushThrows | worker => exact id

/-- The writer has tested its predicate when a fast close sets both flags and notifies twice;
the worker ends without another flush, and then the writer blocks. -/
def lostRun : List Action :=
  List.replicate 4 (.writer true) ++ List.replicate 4 (.closer false) ++
    [.worker, .closer false, .writer true]

theorem writer_lost : ∃ s, Runs (fun _ _ => True) (start 1 1 true) s ∧ s.Lost := by
  obtain ⟨s, hs, hfinished, hblocked⟩ :
      ∃ s, replay (fun _ _ => True) lostRun (start 1 1 true) = some s ∧
        s.Finished ∧ s.writer = .blocked := ⟨_, rfl, ⟨rfl, rfl, rfl, rfl, by decide⟩, rfl⟩
  have hsilent : ∀ s', Runs (fun _ _ => True) s s' → s'.Finished := by
    intro s' hrun
    induction hrun with
    | refl => exact hfinished
    | tail _ hstep ih =>
      obtain ⟨a, -, hs⟩ := hstep
      exact ih.step hs
  refine ⟨s, runs_of_replay hs, hfinished.closer,
    fun s' hrun a hnotifies => absurd hnotifies ((hsilent s' hrun).not_notifies a), hblocked, ?_⟩
  rw [released, hfinished.shuttingDown]
  rfl

end State
end Shutdown
end LsmKv
