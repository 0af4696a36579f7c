import LsmKv.EngineTables
import Mathlib.Logic.Relation

/-!
# The threads of a store

One writer, one flush or compaction at a time and any number of gets on one open store. A step
is a mutex-protected block, one durable change to the directory, or one table a get consults.
-/

namespace LsmKv
open Sst (TableMeta SstBuildResult)

/-- Where `put` or `remove` stands. -/
inductive Writer where
  | idle
  /-- waiting for a flush to make room -/
  | stalled (del : Bool) (key value : Bytes)
  | admitted (del : Bool) (key value : Bytes)
  /-- in `Wal::append`, with the active segment open for the record -/
  | numbered (r : Record)
  /-- in `Wal::append`, with the frame written but not yet synced -/
  | written (r : Record)
  | logged (r : Record)
  /-- in the active memtable, which may be due for rotation -/
  | applied (r : Record)

/-- What an output table is made for. -/
inductive Purpose where
  | flush
  | compaction (ids : List ℕ)

/-- Where `flush_one` or `run_compaction` stands. The two exclude each other and themselves. -/
inductive Creator where
  | idle
  | chosen (live : List TableMeta) (ids : List ℕ)
  | merged (ids : List ℕ) (final : Memtable)
  | named (job : Purpose) (mem : Memtable) (id : ℕ)
  /-- the temporary file is written -/
  | temp (job : Purpose) (mem : Memtable) (r : SstBuildResult)
  /-- the output is in place, or there is none -/
  | placed (job : Purpose) (added : Option TableMeta)
  | published
  | covered (watermark : ℕ)
  /-- in `Wal::remove_segments_covered`, with the segments still to look at -/
  | removing (watermark : ℕ) (ids : List ℕ)
  | deleting (rs : List TableMeta)
  /-- an input was found unreferenced and its file is about to go -/
  | unlinking (r : TableMeta) (rs : List TableMeta)

/-- What a get consults next. -/
inductive Place where
  | active
  | immutables (rest : List Memtable)
  | tables (rest : List TableMeta)

/-- A get in flight. `own` is the active memtable of its version once that is rotated out;
`since` counts the mutations applied before it loaded the version. -/
structure Get where
  key : Bytes
  version : Version
  own : Option Memtable
  since : ℕ
  place : Place

/-- The active memtable leaves the store, but not the gets whose version it is in. -/
def Get.keep (m : Memtable) (g : Get) : Get := { g with own := some (g.own.getD m) }

/-- A get consults one memtable or one table: it goes on, or has its result. -/
def Get.consult (e : Engine) (g : Get) : Get ⊕ Except Error (Option Bytes) :=
  match g.place with
  | .active => match (g.own.getD e.active).find g.key with
    | some hit => .inr (.ok hit.result)
    | none => .inl { g with place := .immutables g.version.immutables }
  | .immutables [] => .inl { g with place := .tables g.version.tables }
  | .immutables (m :: rest) => match m.find g.key with
    | some hit => .inr (.ok hit.result)
    | none => .inl { g with place := .immutables rest }
  | .tables [] => .inr (.ok none)
  | .tables (t :: rest) => match Engine.readTables e.misindexed e.files g.key [t] with
    | .error x => .inr (.error x)
    | .ok (some hit) => .inr (.ok hit.result)
    | .ok none => .inl { g with place := .tables rest }

/-- A get that is through, with the mutations applied before it started and by its end. -/
structure Answer where
  key : Bytes
  since : ℕ
  upto : ℕ
  result : Except Error (Option Bytes)

/-- A store and its threads. The last three fields record what happened: the mutations in the
order they were applied, those acknowledged, and the answers given. -/
structure Threads where
  engine : Engine
  writer : Writer
  creator : Creator
  gets : List Get
  applied : List Record
  acked : List Record
  answers : List Answer

inductive Action where
  | submit (waits : Bool) (del : Bool) (key value : Bytes)
  | resume
  | number
  | write
  | sync
  | apply
  | rotate
  | flush
  | compact (inputs : Option (List ℕ))
  | merge (now : ℕ)
  | name
  | temp
  | rename (now : ℕ)
  | publish
  | watermark
  | remove
  | nextSegment
  | nextInput
  | unlink
  | load (key : Bytes)
  | consult (i : ℕ)

/-- The step gives a record its number. -/
def Action.numbers : Action → Bool
  | .number => true
  | _ => false

/-- The step may start a segment. -/
def Action.rolls : Action → Bool
  | .number | .rotate => true
  | _ => false

namespace Threads

/-- The threads on a store that was just opened. -/
def start (e : Engine) : Threads := ⟨e, .idle, .idle, [], [], [], []⟩

/-! ## The writer -/

/-- The writer holds the log's mutex. -/
def inAppend (s : Threads) : Bool :=
  match s.writer with
  | .numbered _ | .written _ => true
  | _ => false

/-- The creator holds the log's mutex. -/
def inRemoval (s : Threads) : Bool :=
  match s.creator with
  | .removing _ _ => true
  | _ => false

/-- `put` or `remove` up to the end of `ensure_write_capacity`. With the workers running a full
queue of immutables makes it wait, else it is refused. -/
def submit (waits del : Bool) (key value : Bytes) (s : Threads) : Option Threads :=
  match s.writer with
  | .idle => match s.engine.ensureOpen with
    | .error _ => some s
    | .ok _ => if key = [] then some s
      else match s.engine.ensureWriteCapacity with
        | .ok _ => some { s with writer := .admitted del key value }
        | .error _ =>
          if waits ∧ s.engine.manifest.tables.length ≤ s.engine.config.l0StopWrites then
            some { s with writer := .stalled del key value }
          else some s
  | _ => none

def resume (s : Threads) : Option Threads :=
  match s.writer with
  | .stalled del key value =>
    if s.engine.immutables.length < s.engine.config.maxImmutableTables then
      some { s with writer := .admitted del key value }
    else none
  | _ => none

/-- The first part of `Wal::append`: the record gets its number, and a segment with room. -/
def number (s : Threads) : Option Threads :=
  match s.writer with
  | .admitted del key value =>
    if s.inRemoval then none
    else match Wal.checkAppend s.engine.wal.isOpen key value with
      | .error _ => some { s with writer := .idle }
      | .ok _ =>
        let r : Record := ⟨del, key, value, s.engine.wal.lastSeqno + 1⟩
        let wal := if s.engine.wal.mustRoll r then WalLog.rollSegment s.engine.wal else s.engine.wal
        some { s with engine := { s.engine with wal := wal }, writer := .numbered r }
  | _ => none

def write (s : Threads) : Option Threads :=
  match s.writer with
  | .numbered r => some { s with
      engine := { s.engine with wal := WalLog.writeRecord r s.engine.wal }
      writer := .written r }
  | _ => none

def sync (s : Threads) : Option Threads :=
  match s.writer with
  | .written r => some { s with
      engine := { s.engine with wal := (WalLog.syncPolicy s.engine.wal).acknowledge r.seqno }
      writer := .logged r }
  | _ => none

def apply (s : Threads) : Option Threads :=
  match s.writer with
  | .logged r => some { s with
      engine := s.engine.apply r
      writer := .applied r
      applied := s.applied ++ [r] }
  | _ => none

/-- Rotation is due and there is room for one more immutable. -/
def rotates (e : Engine) : Bool :=
  e.config.memtableMaxBytes ≤ e.active.bytes ∧ e.immutables.length < e.config.maxImmutableTables

/-- `maybe_rotate`, and the acknowledgement. -/
def rotate (s : Threads) : Option Threads :=
  match s.writer with
  | .applied r =>
    if rotates s.engine then
      if s.inRemoval then none
      else some { s with
        engine := s.engine.maybeRotate false
        writer := .idle
        gets := s.gets.map (Get.keep s.engine.active)
        acked := s.acked ++ [r] }
    else some { s with writer := .idle, acked := s.acked ++ [r] }
  | _ => none

/-! ## Flushes and compactions -/

def flush (s : Threads) : Option Threads :=
  match s.creator with
  | .idle => match s.engine.immutables.getLast? with
    | none => some s
    | some target => some { s with creator := .named .flush target s.engine.manifest.nextSstId }
  | _ => none

/-- The store with the tables a compaction took its snapshot of. -/
def snapshot (live : List TableMeta) (e : Engine) : Engine :=
  { e with manifest := { e.manifest with tables := live } }

def compact (inputs : Option (List ℕ)) (s : Threads) : Option Threads :=
  match s.creator with
  | .idle => match s.engine.ensureOpen with
    | .error _ => some s
    | .ok _ => match s.engine.chooseInputs inputs with
      | .error _ | .ok none => some s
      | .ok (some ids) => some { s with creator := .chosen s.engine.manifest.tables ids }
  | _ => none

def merge (now : ℕ) (s : Threads) : Option Threads :=
  match s.creator with
  | .chosen live ids => match (snapshot live s.engine).scanInputs ids now with
    | .error _ => some { s with creator := .idle }
    | .ok (final, _) =>
      if final.entries = 0 then some { s with creator := .placed (.compaction ids) none }
      else some { s with creator := .merged ids final }
  | _ => none

def name (s : Threads) : Option Threads :=
  match s.creator with
  | .merged ids final => some { s with
      creator := .named (.compaction ids) final s.engine.manifest.nextSstId }
  | _ => none

/-- `write_sstable` up to its rename. A division by zero does not come back: it ends the process. -/
def temp (s : Threads) : Option Threads :=
  match s.creator with
  | .named job mem id =>
    match Sst.writeSstable id mem (s.engine.config.sst mem.entries) with
    | .error .divideByZero => none
    | .error _ => some { s with creator := .idle }
    | .ok (r, _) => some { s with
        engine := { s.engine with temps := r.id :: s.engine.temps }
        creator := .temp job mem r }
  | _ => none

def rename (now : ℕ) (s : Threads) : Option Threads :=
  match s.creator with
  | .temp job mem r => some { s with
      engine := { s.engine.placeFile r.id mem with temps := s.engine.temps.erase r.id }
      creator := .placed job (some (r.toMeta now)) }
  | _ => none

def publish (s : Threads) : Option Threads :=
  match s.creator with
  | .placed .flush (some info) => match s.engine.publishFlush info with
    | (e, .error _) => some { s with engine := e, creator := .idle }
    | (e, .ok _) => some { s with engine := e, creator := .published }
  | .placed (.compaction ids) added => match s.engine.publishCompaction ids added with
    | (e, .error _) => some { s with engine := e, creator := .idle }
    | (e, .ok removed) => some { s with engine := e, creator := .deleting removed }
  | _ => none

def watermark (s : Threads) : Option Threads :=
  match s.creator with
  | .published => some { s with creator := .covered s.engine.manifest.maxSeqno }
  | _ => none

/-- `remove_segments_covered` lists the segments. -/
def remove (s : Threads) : Option Threads :=
  match s.creator with
  | .covered watermark =>
    if s.inAppend then none
    else some { s with creator := .removing watermark s.engine.wal.dir.keys }
  | _ => none

def nextSegment (s : Threads) : Option Threads :=
  match s.creator with
  | .removing _ [] => some { s with creator := .idle }
  | .removing watermark (id :: ids) => some { s with
      engine := { s.engine with wal := s.engine.wal.removeStep watermark id }
      creator := .removing watermark ids }
  | _ => none

/-- The current version or one that a get holds on to lists the table. -/
def referenced (s : Threads) (r : TableMeta) : Bool :=
  (s.engine.version :: s.gets.map (·.version)).any (fun v => v.tables.any (fun t => t.id = r.id))

def nextInput (s : Threads) : Option Threads :=
  match s.creator with
  | .deleting [] => some { s with creator := .idle }
  | .deleting (r :: rs) =>
    if s.referenced r then some { s with creator := .deleting rs }
    else some { s with creator := .unlinking r rs }
  | _ => none

def unlink (s : Threads) : Option Threads :=
  match s.creator with
  | .unlinking r rs => some { s with
      engine := { s.engine with files := s.engine.files.erase r.id }
      creator := .deleting rs }
  | _ => none

/-! ## Gets -/

/-- A get up to its load of the version; one that is refused is not started. -/
def load (key : Bytes) (s : Threads) : Option Threads :=
  match s.engine.ensureOpen with
  | .error _ => none
  | .ok _ => if key = [] then none
    else some { s with
      gets := s.gets ++ [⟨key, s.engine.version, none, s.applied.length, .active⟩] }

def consult (i : ℕ) (s : Threads) : Option Threads :=
  match s.gets[i]? with
  | none => none
  | some g => match g.consult s.engine with
    | .inl g' => some { s with gets := s.gets.set i g' }
    | .inr result => some { s with
        gets := s.gets.eraseIdx i
        answers := s.answers ++ [⟨g.key, g.since, s.applied.length, result⟩] }

/-! ## Runs -/

def step (s : Threads) : Action → Option Threads
  | .submit waits del key value => s.submit waits del key value
  | .resume => s.resume
  | .number => s.number
  | .write => s.write
  | .sync => s.sync
  | .apply => s.apply
  | .rotate => s.rotate
  | .flush => s.flush
  | .compact inputs => s.compact inputs
  | .merge now => s.merge now
  | .name => s.name
  | .temp => s.temp
  | .rename now => s.rename now
  | .publish => s.publish
  | .watermark => s.watermark
  | .remove => s.remove
  | .nextSegment => s.nextSegment
  | .nextInput => s.nextInput
  | .unlink => s.unlink
  | .load key => s.load key
  | .consult i => s.consult i

/-- Keys and values that writes may come with; a remove brings no value. -/
def Brings (ok : Bytes → Bytes → Prop) : Action → Prop
  | .submit _ del key value => ok key value ∧ (del = true → value = [])
  | _ => True

instance {ok : Bytes → Bytes → Prop} [∀ k v, Decidable (ok k v)] :
    (a : Action) → Decidable (Brings ok a)
  | .submit _ del key value =>
    inferInstanceAs (Decidable (ok key value ∧ (del = true → value = [])))
  | .resume | .number | .write | .sync | .apply | .rotate | .flush | .compact _ | .merge _ | .name
  | .temp | .rename _ | .publish | .watermark | .remove | .nextSegment | .nextInput | .unlink
  | .load _ | .consult _ => inferInstanceAs (Decidable True)

/-- The memtable that `write_sstable` is about to write. -/
def writing (s : Threads) : Option Memtable :=
  match s.creator with
  | .named _ mem _ => some mem
  | _ => none

/-- The memtable whose file the step puts in place. -/
def placing (s : Threads) : Action → Option Memtable
  | .rename _ => match s.creator with
    | .temp _ mem _ => some mem
    | _ => none
  | _ => none

/-- The table that the step publishes. -/
def publishing (s : Threads) : Action → Option TableMeta
  | .publish => match s.creator with
    | .placed _ added => added
    | _ => none
  | _ => none

/-- The step begins a table. -/
def begins (s : Threads) : Action → Bool
  | .flush => !s.engine.immutables.isEmpty
  | .name => true
  | _ => false

/-- A file that is put in place has blocks whose sizes its index can hold. -/
def Indexed (s : Threads) (a : Action) : Prop :=
  ∀ mem ∈ s.placing a, Sst.cutsSize (s.engine.config.sst mem.entries) mem = false

/-- A table that is published has bits per key that are a number. -/
def Finite (s : Threads) (a : Action) : Prop :=
  ∀ t ∈ s.publishing a, t.bloomBitsPerKey.isFinite = true

/-- No table is begun whose first row would be divided by zero. -/
def Survives (s : Threads) (a : Action) : Prop :=
  s.begins a = true → s.engine.config.restartInterval ≠ 0

/-- A record finds a sequence number of 64 bits. -/
def Counted (s : Threads) (a : Action) : Prop :=
  a.numbers = true → s.engine.wal.lastSeqno + 1 < 2 ^ 64

/-- A new segment finds a number of fewer than twelve digits, which its file name has room for. -/
def Numbered (s : Threads) (a : Action) : Prop :=
  a.rolls = true → s.engine.wal.activeId + 1 < 10 ^ 11

/-- A table gets an id of at most fifteen digits, so that no other table has the name of its
file. -/
def Named (s : Threads) (a : Action) : Prop :=
  s.begins a = true → s.engine.manifest.nextSstId < 10 ^ 15

theorem indexed_of_none {s : Threads} {a : Action} (h : s.placing a = none) : s.Indexed a := by
  intro mem hmem
  rw [h] at hmem
  exact absurd hmem (Option.not_mem_none mem)

/-- What the step writes can be found again, by a get and by the next `open`. -/
def Lasting (s : Threads) (a : Action) : Prop :=
  s.Indexed a ∧ s.Finite a ∧ s.Counted a ∧ s.Numbered a ∧ s.Named a

instance (s : Threads) (a : Action) : Decidable (s.Indexed a) :=
  inferInstanceAs (Decidable (∀ _ ∈ _, _ = _))

instance (s : Threads) (a : Action) : Decidable (s.Finite a) :=
  inferInstanceAs (Decidable (∀ _ ∈ _, _ = _))

instance (s : Threads) (a : Action) : Decidable (s.Survives a) :=
  inferInstanceAs (Decidable (_ → _))

instance (s : Threads) (a : Action) : Decidable (s.Counted a) :=
  inferInstanceAs (Decidable (_ → _))

instance (s : Threads) (a : Action) : Decidable (s.Numbered a) :=
  inferInstanceAs (Decidable (_ → _))

instance (s : Threads) (a : Action) : Decidable (s.Named a) :=
  inferInstanceAs (Decidable (_ → _))

instance (s : Threads) (a : Action) : Decidable (s.Lasting a) :=
  inferInstanceAs (Decidable (_ ∧ _ ∧ _ ∧ _ ∧ _))

def Next (ok : Threads → Action → Prop) (s s' : Threads) : Prop :=
  ∃ a, ok s a ∧ s.step a = some s'

/-- Steps of the threads in any order, each of which meets the condition where it comes. -/
abbrev Runs (ok : Threads → Action → Prop) : Threads → Threads → Prop :=
  Relation.ReflTransGen (Next ok)

def performAll (s : Threads) : List Action → Option Threads
  | [] => some s
  | a :: as => (s.step a).bind (fun s' => performAll s' as)

def Allowed (ok : Threads → Action → Prop) : Threads → List Action → Prop
  | _, [] => True
  | s, a :: as => ok s a ∧ ∀ s' ∈ s.step a, Allowed ok s' as

def decidableAllowed {ok : Threads → Action → Prop} [∀ s a, Decidable (ok s a)] :
    (s : Threads) → (as : List Action) → Decidable (Allowed ok s as)
  | _, [] => .isTrue trivial
  | s, a :: as =>
    have : ∀ s', Decidable (Allowed ok s' as) := fun s' => decidableAllowed s' as
    inferInstanceAs (Decidable (ok s a ∧ ∀ s' ∈ s.step a, Allowed ok s' as))

instance {ok : Threads → Action → Prop} [∀ s a, Decidable (ok s a)] (s : Threads)
    (as : List Action) : Decidable (Allowed ok s as) := decidableAllowed s as

theorem runs_performAll {ok : Threads → Action → Prop} {as : List Action} {s s' : Threads}
    (has : Allowed ok s as) (h : s.performAll as = some s') : Runs ok s s' := by
  induction as generalizing s with
  | nil =>
    obtain rfl := Option.some.inj h
    exact .refl
  | cons a as ih =>
    obtain ⟨t, ht, hrest⟩ := Option.bind_eq_some_iff.mp h
    exact .head ⟨a, has.1, ht⟩ (ih (has.2 t ht) hrest)

theorem Runs.invariant {ok : Threads → Action → Prop} {P : Threads → Prop}
    (hstep : ∀ s s' a, P s → ok s a → s.step a = some s' → P s') {s s' : Threads}
    (h : Runs ok s s') (hs : P s) : P s' := by
  induction h with
  | refl => exact hs
  | tail _ hlast ih =>
    obtain ⟨a, ha, hstep'⟩ := hlast
    exact hstep _ _ a ih ha hstep'

theorem maybeRotate_of_rotates {e : Engine} (hr : rotates e = true) :
    e.maybeRotate false = { e with
      wal := (WalLog.roll e.wal).1
      immutables := e.active :: e.immutables
      active := .fresh e.config.overheadBytesPerEntry
      version := ⟨e.active :: e.immutables, e.readers⟩ } := by
  obtain ⟨hfull, hroom⟩ := of_decide_eq_true hr
  rw [Engine.maybeRotate, if_neg (not_lt.mpr hfull), if_neg (not_le.mpr hroom)]
  rfl

/-- A publication edits the manifest, whose next id does not go back, and perhaps the table set
and the end of the queue. The log, the files and the active memtable stay. -/
theorem publish_cases {s s' : Threads} (h : s.publish = some s') :
    ∃ manifest stored readers immutables version creator,
      s.engine.manifest.nextSstId ≤ manifest.nextSstId ∧ immutables <+: s.engine.immutables ∧
      (∀ r rs, creator ≠ .unlinking r rs) ∧
      s' = { s with
        engine := { s.engine with
          manifest := manifest
          stored := stored
          readers := readers
          immutables := immutables
          version := version }
        creator := creator } := by
  rw [publish] at h
  split at h
  · rename_i info _
    obtain ⟨stored, readers, immutables, version, hprefix, heq⟩ :=
      publishFlushAt_eq none info s.engine
    have hnext : s.engine.manifest.nextSstId ≤ (s.engine.manifest.addTable info).nextSstId :=
      le_max_left _ _
    rw [Engine.publishFlush] at h
    split at h
    · rename_i e x hpublish
      rw [hpublish] at heq
      obtain rfl : e = _ := heq
      exact ⟨_, _, _, _, _, .idle, hnext, hprefix, by simp, (Option.some.inj h).symm⟩
    · rename_i e u hpublish
      rw [hpublish] at heq
      obtain rfl : e = _ := heq
      exact ⟨_, _, _, _, _, .published, hnext, hprefix, by simp, (Option.some.inj h).symm⟩
  · rename_i ids added _
    obtain ⟨stored, readers, version, heq⟩ := publishCompactionAt_eq none ids added s.engine
    have hnext : s.engine.manifest.nextSstId ≤
        (s.engine.manifest.applyCompaction s.engine.config.sort ids added).nextSstId := by
      cases added with
      | none => exact le_rfl
      | some t => exact le_max_left _ _
    have hprefix : s.engine.immutables <+: s.engine.immutables := List.prefix_refl _
    rw [Engine.publishCompaction] at h
    split at h
    · rename_i e x hpublish
      rw [hpublish] at heq
      obtain rfl : e = _ := heq
      exact ⟨_, _, _, _, _, .idle, hnext, hprefix, by simp, (Option.some.inj h).symm⟩
    · rename_i e removed hpublish
      rw [hpublish] at heq
      obtain rfl : e = _ := heq
      exact ⟨_, _, _, _, _, .deleting removed, hnext, hprefix, by simp, (Option.some.inj h).symm⟩
  · cases h

end Threads
end LsmKv
