import LsmKv.ScopedLocks

/-!
# The engine's locks

What each operation does with the eight kinds of mutexes, function by function. A reader that
goes with the last version that lists it takes the pool's mutex in its destructor, wherever that
is. The log's mutex is taken with nothing taken inside, as the cache's is, and left out.
-/

namespace LsmKv
namespace LockDiscipline
open ScopedLocks

inductive Mutex where
  | write
  | creation
  | state
  | wal
  | io (r : ℕ)
  | pool
  | cache
  | memtable (m : ℕ)
  deriving DecidableEq

abbrev Code := Prog Mutex

/-! ## Memtable, log, cache and pool -/

def memtableApply (m : ℕ) : Code := .exclusive (.memtable m) .skip
def memtableFind (m : ℕ) : Code := .shared (.memtable m) .skip
def memtableBytes (m : ℕ) : Code := .shared (.memtable m) .skip
def memtableEntries (m : ℕ) : Code := .shared (.memtable m) .skip

def walAppend : Code := .exclusive .wal .skip
def walRoll : Code := .exclusive .wal .skip
def walRemoveSegmentsCovered : Code := .exclusive .wal .skip

def blockCacheFind : Code := .exclusive .cache .skip
def blockCacheInsert : Code := .exclusive .cache .skip

def fdPoolTouch : Code := .exclusive .pool .skip
def fdPoolOnClose : Code := .exclusive .pool .skip

/-- `on_open`. A victim whose `try_close_file` finds it busy is put back. -/
def fdPoolOnOpen (victims : List ℕ) : Code :=
  .seq (.exclusive .pool .skip)
    (.all (victims.map fun v => .tryGuard (.io v) .skip (.exclusive .pool .skip)))

/-! ## TableReader -/

def ensureOpen (victims : List ℕ) : Code := .choice fdPoolTouch (fdPoolOnOpen victims)

/-- `TableReader::get`: out of range, or up to the filter, or on to a block. -/
def tableReaderGet (r : ℕ) (victims : List ℕ) : Code :=
  .choice .skip (.exclusive (.io r) (.seq (ensureOpen victims)
    (.choice .skip (.seq blockCacheFind (.choice .skip blockCacheInsert)))))

/-- References to readers are dropped, and the last ones run `~TableReader`. -/
def dropReaders : Code := .loop fdPoolOnClose

/-! ## Engine -/

/-- `publish_version`. The version before goes when nobody reads it. -/
def publishVersion : Code := .ensure .skip dropReaders

def ensureWriteCapacity (active : ℕ) : Code :=
  .exclusive .state (.seq (memtableBytes active) (.loop (.wait .state)))

def maybeRotate (active : ℕ) : Code :=
  .seq (memtableBytes active) (.choice .skip (.exclusive .state (.choice .skip
    (.all [walRoll, memtableBytes active, publishVersion]))))

def applyMutation (active : ℕ) : Code := .seq (memtableApply active) (maybeRotate active)

def put (active : ℕ) : Code :=
  .exclusive .write (.all [ensureWriteCapacity active, walAppend, applyMutation active])

def remove (active : ℕ) : Code :=
  .exclusive .write (.all [ensureWriteCapacity active, walAppend, applyMutation active])

/-- `get` on a version of these memtables and tables, each with the victims of its opening. -/
def get (memtables : List ℕ) (tables : List (ℕ × List ℕ)) : Code :=
  .ensure (.seq (.all (memtables.map memtableFind))
    (.all (tables.map fun t => tableReaderGet t.1 t.2))) dropReaders

def writeSstable (mem : ℕ) : Code :=
  .all [memtableEntries mem, memtableEntries mem, memtableEntries mem]

def flushOne (target : ℕ) : Code :=
  .exclusive .creation (.seq (.exclusive .state .skip) (.choice .skip (.all [
    memtableBytes target,
    writeSstable target,
    .exclusive .state publishVersion,
    .exclusive .state .skip,
    walRemoveSegmentsCovered])))

/-- `run_compaction`, which may end early at any point. -/
def runCompaction (merged final_table : ℕ) : Code :=
  .exclusive .creation (.ensure (.all [
    .exclusive .state .skip,
    .loop (memtableApply merged),
    .loop (memtableApply final_table),
    .loop (memtableEntries final_table),
    .choice .skip (.seq (.exclusive .state .skip) (writeSstable final_table)),
    .exclusive .state publishVersion,
    dropReaders]) dropReaders)

def memtableStats (active : ℕ) (immutables : List ℕ) : Code :=
  .exclusive .state (.all (memtableEntries active :: memtableBytes active ::
    immutables.map memtableBytes))

inductive Op where
  | put (active : ℕ)
  | remove (active : ℕ)
  | get (memtables : List ℕ) (tables : List (ℕ × List ℕ))
  | flushOne (target : ℕ)
  | runCompaction (merged final_table : ℕ)
  | memtableStats (active : ℕ) (immutables : List ℕ)

def Op.code : Op → Code
  | .put active => LockDiscipline.put active
  | .remove active => LockDiscipline.remove active
  | .get memtables tables => LockDiscipline.get memtables tables
  | .flushOne target => LockDiscipline.flushOne target
  | .runCompaction merged final_table => LockDiscipline.runCompaction merged final_table
  | .memtableStats active immutables => LockDiscipline.memtableStats active immutables

/-! ## The order -/

/-- Mutexes of one rank are never nested but with `try_lock`. -/
def rank : Mutex → ℕ
  | .write => 0
  | .creation => 1
  | .state => 2
  | .wal | .memtable _ | .io _ => 3
  | .pool | .cache => 4

/-- A stalled writer keeps `write_mutex_` and nothing else. -/
def discipline : Discipline Mutex where
  rank := rank
  waits := fun held => held = [(.write, .exclusive)]

/-- Everything held has a rank below `n`. -/
def Low (n : ℕ) (held : List (Mutex × Mode)) : Prop := ∀ h ∈ held, rank h.1 < n

/-! ## Every function keeps to it -/

section
variable {held : List (Mutex × Mode)} {n : ℕ} {m : Mutex} {mode : Mode}

theorem Low.mono {n' : ℕ} (h : Low n held) (hn : n ≤ n') : Low n' held :=
  fun a ha => Nat.lt_of_lt_of_le (h a ha) hn

theorem Low.cons (h : Low n held) (hm : n ≤ rank m) : Low (rank m + 1) ((m, mode) :: held) :=
  List.forall_mem_cons.mpr ⟨Nat.lt_succ_self _, h.mono (Nat.le_succ_of_le hm)⟩

theorem Low.nil : Low 0 [] := nofun

theorem guard_obeys {p : Code} (h : Low n held) (hm : n ≤ rank m)
    (hp : Low (rank m + 1) ((m, mode) :: held) → p.Obeys discipline ((m, mode) :: held)) :
    (Prog.guard m mode p).Obeys discipline held :=
  ⟨h.mono hm, hp (h.cons hm)⟩

/-- A mutex nothing is taken inside. -/
theorem leaf_obeys (h : Low n held) (hm : n ≤ rank m) :
    (Prog.guard m mode .skip).Obeys discipline held :=
  guard_obeys h hm fun _ => trivial

theorem fdPoolOnOpen_obeys (h : Low 4 held) (victims : List ℕ) :
    (fdPoolOnOpen victims).Obeys discipline held := by
  refine ⟨leaf_obeys h (Nat.le_refl 4), obeys_all.mpr ?_⟩
  rintro _ hp
  obtain ⟨v, -, rfl⟩ := List.mem_map.mp hp
  exact ⟨trivial, leaf_obeys h (Nat.le_refl 4)⟩

theorem ensureOpen_obeys (h : Low 4 held) (victims : List ℕ) :
    (ensureOpen victims).Obeys discipline held :=
  ⟨leaf_obeys h (Nat.le_refl 4), fdPoolOnOpen_obeys h victims⟩

theorem tableReaderGet_obeys (h : Low 3 held) (r : ℕ) (victims : List ℕ) :
    (tableReaderGet r victims).Obeys discipline held := by
  refine ⟨trivial, guard_obeys h (Nat.le_refl 3) fun hio => ?_⟩
  have hcache : blockCacheFind.Obeys discipline ((.io r, .exclusive) :: held) :=
    leaf_obeys hio (Nat.le_refl 4)
  exact ⟨ensureOpen_obeys hio victims, trivial, hcache, trivial, hcache⟩

theorem publishVersion_obeys (h : Low 4 held) : publishVersion.Obeys discipline held :=
  ⟨trivial, leaf_obeys h (Nat.le_refl 4)⟩

theorem ensureWriteCapacity_obeys (active : ℕ) :
    (ensureWriteCapacity active).Obeys discipline [(.write, .exclusive)] := by
  have hwrite : Low 1 [(Mutex.write, Mode.exclusive)] := Low.nil.cons (Nat.le_refl 0)
  refine guard_obeys (hwrite.mono (Nat.le_succ 1)) (Nat.le_refl 2) fun hstate =>
    ⟨leaf_obeys hstate (Nat.le_refl 3), _, rfl, hwrite.mono (Nat.le_succ 1), rfl⟩

theorem maybeRotate_obeys (h : Low 2 held) (active : ℕ) :
    (maybeRotate active).Obeys discipline held := by
  refine ⟨leaf_obeys h (Nat.le_succ 2), trivial, guard_obeys h (Nat.le_refl 2) fun hstate => ?_⟩
  have hleaf : walRoll.Obeys discipline ((.state, .exclusive) :: held) :=
    leaf_obeys hstate (Nat.le_refl 3)
  exact ⟨trivial, hleaf, leaf_obeys hstate (Nat.le_refl 3),
    publishVersion_obeys (hstate.mono (Nat.le_succ 3)), trivial⟩

theorem applyMutation_obeys (h : Low 2 held) (active : ℕ) :
    (applyMutation active).Obeys discipline held :=
  ⟨leaf_obeys h (Nat.le_succ 2), maybeRotate_obeys h active⟩

theorem put_obeys (active : ℕ) : (put active).Obeys discipline [] := by
  refine guard_obeys Low.nil (Nat.le_refl 0) fun hwrite => ?_
  exact ⟨ensureWriteCapacity_obeys active, leaf_obeys (hwrite.mono (by decide)) (Nat.le_refl 3),
    applyMutation_obeys (hwrite.mono (Nat.le_succ 1)) active, trivial⟩

theorem get_obeys (memtables : List ℕ) (tables : List (ℕ × List ℕ)) :
    (get memtables tables).Obeys discipline [] := by
  refine ⟨⟨obeys_all.mpr ?_, obeys_all.mpr ?_⟩, leaf_obeys Low.nil (Nat.zero_le _)⟩
  · intro p hp
    obtain ⟨m, -, rfl⟩ := List.mem_map.mp hp
    exact leaf_obeys Low.nil (Nat.zero_le _)
  · intro p hp
    obtain ⟨t, -, rfl⟩ := List.mem_map.mp hp
    exact tableReaderGet_obeys (Low.nil.mono (Nat.zero_le 3)) t.1 t.2

theorem writeSstable_obeys (h : Low 3 held) (mem : ℕ) :
    (writeSstable mem).Obeys discipline held := by
  have hentries : (memtableEntries mem).Obeys discipline held := leaf_obeys h (Nat.le_refl 3)
  exact ⟨hentries, hentries, hentries, trivial⟩

theorem flushOne_obeys (target : ℕ) : (flushOne target).Obeys discipline [] := by
  refine guard_obeys Low.nil (Nat.zero_le _) fun hcreation => ?_
  have h₃ := hcreation.mono (Nat.le_succ 2)
  have hstate : (Prog.exclusive .state .skip).Obeys discipline [(.creation, .exclusive)] :=
    leaf_obeys hcreation (Nat.le_refl 2)
  have hpublish : (Prog.exclusive .state publishVersion).Obeys discipline
      [(.creation, .exclusive)] :=
    guard_obeys hcreation (Nat.le_refl 2) fun h => publishVersion_obeys (h.mono (Nat.le_succ 3))
  exact ⟨hstate, trivial, leaf_obeys h₃ (Nat.le_refl 3), writeSstable_obeys h₃ target, hpublish,
    hstate, leaf_obeys h₃ (Nat.le_refl 3), trivial⟩

theorem runCompaction_obeys (merged final_table : ℕ) :
    (runCompaction merged final_table).Obeys discipline [] := by
  refine guard_obeys Low.nil (Nat.zero_le _) fun hcreation => ?_
  have h₃ := hcreation.mono (Nat.le_succ 2)
  have hstate : (Prog.exclusive .state .skip).Obeys discipline [(.creation, .exclusive)] :=
    leaf_obeys hcreation (Nat.le_refl 2)
  have hpublish : (Prog.exclusive .state publishVersion).Obeys discipline
      [(.creation, .exclusive)] :=
    guard_obeys hcreation (Nat.le_refl 2) fun h => publishVersion_obeys (h.mono (Nat.le_succ 3))
  have hdrop : dropReaders.Obeys discipline [(.creation, .exclusive)] :=
    leaf_obeys h₃ (Nat.le_succ 3)
  have hmemtable : ∀ m mode, (Prog.guard (.memtable m) mode .skip).Obeys discipline
      [(.creation, .exclusive)] := fun m mode => leaf_obeys h₃ (Nat.le_refl 3)
  exact ⟨⟨hstate, hmemtable _ _, hmemtable _ _, hmemtable _ _,
    ⟨trivial, hstate, writeSstable_obeys h₃ final_table⟩, hpublish, hdrop, trivial⟩, hdrop⟩

theorem memtableStats_obeys (active : ℕ) (immutables : List ℕ) :
    (memtableStats active immutables).Obeys discipline [] := by
  refine guard_obeys Low.nil (Nat.zero_le _) fun hstate => ?_
  refine ⟨leaf_obeys hstate (Nat.le_refl 3), leaf_obeys hstate (Nat.le_refl 3),
    obeys_all.mpr ?_⟩
  intro p hp
  obtain ⟨m, -, rfl⟩ := List.mem_map.mp hp
  exact leaf_obeys hstate (Nat.le_refl 3)

end

/-- Every operation takes its locks in the order of their ranks. -/
theorem obeys (op : Op) : op.code.Obeys discipline [] := by
  cases op with
  | put active | remove active => exact put_obeys active
  | get memtables tables => exact get_obeys memtables tables
  | flushOne target => exact flushOne_obeys target
  | runCompaction merged final_table => exact runCompaction_obeys merged final_table
  | memtableStats active immutables => exact memtableStats_obeys active immutables

/-! ## No deadlock -/

/-- A flush never has to wait for `write_mutex_`. -/
theorem one_le_rank_of_flushOne_takes {target : ℕ} {m : Mutex} (h : (flushOne target).Takes m) :
    1 ≤ rank m := by
  rcases h with rfl | h
  · exact Nat.le_refl 1
  · exact (flushOne_obeys target).2.le_of_takes h _ List.mem_cons_self

variable {T : Type*} [DecidableEq T] {s : T → Thread Mutex Op}

theorem lock_discipline (h : Reachable Op.code s) :
    (∀ t, ¬Relation.TransGen (WaitsFor s) t t) ∧
    ∀ f target u, (s f).op = some (.flushOne target) → Relation.TransGen (WaitsFor s) f u →
      ¬Stalled (s u) ∧ ∀ w, Stalled (s w) → ¬WaitsFor s u w := by
  have hsound : ∀ t, Sound discipline Op.code (s t) := h.sound obeys
  refine ⟨no_cycle hsound, fun f target u hop hchain => ?_⟩
  have hwaits : ∀ held, discipline.waits held → ∀ a ∈ held, rank a.1 < 1 := by
    rintro _ rfl a ha
    obtain rfl := List.mem_singleton.mp ha
    exact Nat.zero_lt_one
  refine chain_avoids_stalled hsound hwaits (fun m mode hw => ?_) hchain
  obtain ⟨op, hmem, htakes⟩ := (hsound f).wants_takes hw
  obtain rfl := Option.some.inj (hop.symm.trans hmem)
  exact one_le_rank_of_flushOne_takes htakes

/-- Thread 0 is stalled in `put`, thread 1 waits in `flush_one` for a compaction, thread 2. -/
def stalledState : Fin 3 → Thread Mutex Op
  | 0 => {
    op := some (.put 0)
    held := [(.write, .exclusive)]
    todo := [.reacquire .state, .run (.loop (.wait .state)), .release .state .exclusive,
      .run (.all [walAppend, applyMutation 0]), .release .write .exclusive]
    asleep := true }
  | 1 => {
    op := some (.flushOne 1)
    todo := [.run (flushOne 1)] }
  | 2 => {
    op := some (.runCompaction 2 3)
    held := [(.creation, .exclusive)]
    todo := [.run (.ensure (.all [
        .exclusive .state .skip,
        .loop (memtableApply 2),
        .loop (memtableApply 3),
        .loop (memtableEntries 3),
        .choice .skip (.seq (.exclusive .state .skip) (writeSstable 3)),
        .exclusive .state publishVersion,
        dropReaders]) dropReaders), .release .creation .exclusive] }

theorem stalledState_reachable : Reachable Op.code stalledState := by
  have hstart : Reachable Op.code (fun _ : Fin 3 => {}) := .start
  have h := hstart.call 0 (.put 0) rfl
    |>.call 1 (.flushOne 1) rfl
    |>.call 2 (.runCompaction 2 3) rfl
    |>.advance 2 (.lock rfl (by decide))
    |>.advance 0 (.lock rfl (by decide))
    |>.advance 0 (.seq rfl)
    |>.advance 0 (.lock rfl (by decide))
    |>.advance 0 (.seq rfl)
    |>.advance 0 (.lock rfl (by decide))
    |>.advance 0 (.skip rfl)
    |>.advance 0 (.release rfl)
    |>.advance 0 (.again rfl)
    |>.advance 0 (.sleep rfl)
  convert h using 1
  funext t
  match t with
  | 0 | 1 | 2 => rfl

theorem lock_discipline_stalledState :
    (∀ t, ¬Relation.TransGen (WaitsFor stalledState) t t) ∧
    Stalled (stalledState 0) ∧ WaitsFor stalledState 1 2 ∧
    ¬Stalled (stalledState 2) ∧ ¬WaitsFor stalledState 2 0 := by
  obtain ⟨hcycle, hflush⟩ := lock_discipline stalledState_reachable
  have hstalled : Stalled (stalledState 0) := ⟨_, _, rfl⟩
  have hwaits : WaitsFor stalledState 1 2 :=
    ⟨.creation, .exclusive, .lock rfl, (.creation, .exclusive), List.mem_cons_self, rfl, .inl rfl⟩
  obtain ⟨hawake, hfree⟩ := hflush 1 1 2 rfl (.single hwaits)
  exact ⟨hcycle, hstalled, hwaits, hawake, hfree 0 hstalled⟩

end LockDiscipline
end LsmKv
