import LsmKv.Replay
import LsmKv.Sessions
import LsmKv.Wal

/-!
# Refused writes

A write that throws leaves no trace for readers, whatever call of the log fails in it, but for
one: the roll of a rotation comes after the row is in the memtable.
-/

namespace LsmKv
open OrderedMap

/-! ## Writes over a log that can fail -/

/-- An open store on a log kept byte by byte. The record-level log of `engine` is not used. -/
structure ByteStore where
  engine : Engine
  log : Wal UInt8

namespace ByteStore

/-- Whether `maybe_rotate` gets to its roll. -/
def rotates (e : Engine) : Prop :=
  ¬e.active.bytes < e.config.memtableMaxBytes ∧
    ¬e.config.maxImmutableTables ≤ e.immutables.length

instance (e : Engine) : Decidable (rotates e) := inferInstanceAs (Decidable (_ ∧ _))

/-- `maybe_rotate` of a live store, with the call that cuts its roll short. -/
def maybeRotate (cut : Wal.Cut) (s : ByteStore) : ByteStore × Except Error Unit :=
  if s.engine.active.bytes < s.engine.config.memtableMaxBytes then (s, .ok ())
  else if s.engine.config.maxImmutableTables ≤ s.engine.immutables.length then (s, .ok ())
  else match s.log.roll cut with
    | (log, .error x) => ({ s with log := log }, .error x)
    | (log, .ok _) => (⟨s.engine.freeze.publishVersion, log⟩, .ok ())

/-- What `put` and `remove` have in common, with the calls that cut the append and the roll
short. -/
def write (append_cut roll_cut : Wal.Cut) (del : Bool) (key value : Bytes) (s : ByteStore) :
    ByteStore × Except Error ℕ :=
  match s.engine.ensureOpen with
  | .error x => (s, .error x)
  | .ok _ =>
    if key = [] then (s, .error ⟨.invalidArgument, "empty key is not allowed"⟩)
    else match s.engine.ensureWriteCapacity with
      | .error x => (s, .error x)
      | .ok _ => match s.log.append append_cut del key value with
        | (log, .error x) => ({ s with log := log }, .error x)
        | (log, .ok seqno) =>
          match maybeRotate roll_cut ⟨s.engine.apply ⟨del, key, value, seqno⟩, log⟩ with
          | (s, .error x) => (s, .error x)
          | (s, .ok _) => (s, .ok seqno)

def put (append_cut roll_cut : Wal.Cut) (key value : Bytes) (s : ByteStore) :
    ByteStore × Except Error ℕ := s.write append_cut roll_cut false key value

def remove (append_cut roll_cut : Wal.Cut) (key : Bytes) (s : ByteStore) :
    ByteStore × Except Error ℕ := s.write append_cut roll_cut true key []

/-- The write passes its checks, its append succeeds, a rotation is due and its roll fails. -/
structure RollFails (append_cut roll_cut : Wal.Cut) (del : Bool) (key value : Bytes)
    (s : ByteStore) : Prop where
  isOpen : s.engine.ensureOpen = .ok ()
  nonempty : key ≠ []
  capacity : s.engine.ensureWriteCapacity = .ok ()
  roll : ∃ log seqno, s.log.append append_cut del key value = (log, .ok seqno) ∧
    rotates (s.engine.apply ⟨del, key, value, seqno⟩) ∧
    ∃ log' x, log.roll roll_cut = (log', .error x)

/-! ## What readers see of a refused write -/

section
variable {s : ByteStore} {append_cut roll_cut : Wal.Cut} {del : Bool} {key value : Bytes}

/-- `maybe_rotate` throws just where a rotation is due and its roll fails; the memtables are not
touched then. -/
theorem maybeRotate_cases (cut : Wal.Cut) (s : ByteStore) :
    (∃ s', s.maybeRotate cut = (s', .ok ()) ∧
      ¬(rotates s.engine ∧ ∃ log' x, s.log.roll cut = (log', .error x))) ∨
    ∃ log' x, rotates s.engine ∧ s.log.roll cut = (log', .error x) ∧
      s.maybeRotate cut = (⟨s.engine, log'⟩, .error x) := by
  rw [maybeRotate]
  by_cases hbytes : s.engine.active.bytes < s.engine.config.memtableMaxBytes
  · rw [if_pos hbytes]
    exact .inl ⟨s, rfl, fun hdue => hdue.1.1 hbytes⟩
  by_cases hroom : s.engine.config.maxImmutableTables ≤ s.engine.immutables.length
  · rw [if_neg hbytes, if_pos hroom]
    exact .inl ⟨s, rfl, fun hdue => hdue.1.2 hroom⟩
  rw [if_neg hbytes, if_neg hroom]
  rcases hroll : s.log.roll cut with ⟨log', y | id⟩
  · exact .inr ⟨log', y, ⟨hbytes, hroom⟩, rfl, rfl⟩
  · refine .inl ⟨_, rfl, fun hdue => ?_⟩
    obtain ⟨-, log'', x, hfail⟩ := hdue
    exact nomatch (Prod.mk.inj hfail).2

/-- A write that throws leaves the memtables as they were, or its row is in. -/
theorem engine_write_of_error {x : Error}
    (h : (s.write append_cut roll_cut del key value).2 = .error x) :
    (¬s.RollFails append_cut roll_cut del key value ∧
      (s.write append_cut roll_cut del key value).1.engine = s.engine) ∨
    (s.RollFails append_cut roll_cut del key value ∧ ∃ seqno,
      (s.write append_cut roll_cut del key value).1.engine =
        s.engine.apply ⟨del, key, value, seqno⟩) := by
  rw [write] at h ⊢
  rcases hopen : s.engine.ensureOpen with y | u
  · exact .inl ⟨fun hf => (nomatch hopen.symm.trans hf.isOpen), rfl⟩
  rw [hopen] at h
  dsimp only at h ⊢
  by_cases hkey : key = []
  · rw [if_pos hkey]
    exact .inl ⟨fun hf => hf.nonempty hkey, rfl⟩
  rw [if_neg hkey] at h ⊢
  rcases hcap : s.engine.ensureWriteCapacity with y | u
  · exact .inl ⟨fun hf => (nomatch hcap.symm.trans hf.capacity), rfl⟩
  rw [hcap] at h
  dsimp only at h ⊢
  rcases happ : s.log.append append_cut del key value with ⟨log, y | seqno⟩
  · refine .inl ⟨fun hf => ?_, rfl⟩
    obtain ⟨log', seqno, hok, -⟩ := hf.roll
    exact nomatch (Prod.mk.inj (happ.symm.trans hok)).2
  rw [happ] at h
  dsimp only at h ⊢
  rcases maybeRotate_cases roll_cut ⟨s.engine.apply ⟨del, key, value, seqno⟩, log⟩ with
    ⟨s', hrotate, -⟩ | ⟨log', y, hdue, hroll, hrotate⟩
  · rw [hrotate] at h
    cases h
  · rw [hrotate]
    exact .inr ⟨⟨hopen, hkey, hcap, log, seqno, happ, hdue, log', y, hroll⟩, seqno, rfl⟩

theorem get_apply_of_ne (e : Engine) (r : Record) {k : Bytes} (hk : r.key ≠ k) :
    (e.apply r).get k = e.get k := by
  have hfind : (e.apply r).active.find k = e.active.find k := by
    rw [Memtable.find, Memtable.find, Engine.apply, Memtable.map_apply, find?_insert_of_ne _ _ hk]
  rw [Engine.get, Engine.get, hfind]
  rfl

theorem get_apply_self {e : Engine} (ho : e.ensureOpen = .ok ()) {key : Bytes} (hk : key ≠ [])
    (del : Bool) (value : Bytes) (seqno : ℕ) :
    (e.apply ⟨del, key, value, seqno⟩).get key = .ok (if del then none else some value) := by
  have hfind : (e.apply ⟨del, key, value, seqno⟩).active.find key = some ⟨value, seqno, del⟩ := by
    rw [Memtable.find, Engine.apply, Memtable.map_apply, find?_insert_self]
  have hopen : (e.apply ⟨del, key, value, seqno⟩).ensureOpen = .ok () := ho
  rw [Engine.get, hopen, hfind, if_neg hk]
  rfl

/-- A write that throws is seen by no reader, unless its row is in the memtable when the roll
fails and says something new of its key. -/
theorem refused_write_iff {x : Error}
    (h : (s.write append_cut roll_cut del key value).2 = .error x) :
    (∀ k, (s.write append_cut roll_cut del key value).1.engine.get k = s.engine.get k) ↔
      ¬(s.RollFails append_cut roll_cut del key value ∧
        s.engine.get key ≠ .ok (if del then none else some value)) := by
  rcases engine_write_of_error h with ⟨hf, heq⟩ | ⟨hf, seqno, heq⟩
  · rw [heq]
    exact iff_of_true (fun _ => rfl) (fun hboth => hf hboth.1)
  · have hself := get_apply_self hf.isOpen hf.nonempty del value seqno
    rw [heq, not_and_not_right]
    constructor
    · intro hsame _
      exact (hsame key).symm.trans hself
    · intro hsaid k
      by_cases hk : k = key
      · rw [hk]
        exact hself.trans (hsaid hf).symm
      · exact get_apply_of_ne s.engine _ (Ne.symm hk)

end

/-- An empty directory, just opened. -/
def fresh (config : Config) : ByteStore where
  engine := Host.opened config {}
  log := ((Wal.create ∅ config.walFsyncEveryN config.walSegmentRollBytes).open .never).1

/-- The record does not get to the log, and nothing is seen of it. -/
theorem refused_write_unseen :
    (((fresh (Config.small 1 1 1000)).write (.record 3) .never false [97] [1]).2 =
      .error (Wal.ioFailure "cannot append WAL record")) ∧
    ∀ k, ((fresh (Config.small 1 1 1000)).write (.record 3) .never false [97] [1]).1.engine.get k =
      (fresh (Config.small 1 1 1000)).engine.get k := by
  have happ : ((fresh (Config.small 1 1 1000)).log.append (.record 3) false [97] [1]).2 =
      .error (Wal.ioFailure "cannot append WAL record") := by decide +kernel
  have hthrows : ((fresh (Config.small 1 1 1000)).write (.record 3) .never false [97] [1]).2 =
      .error (Wal.ioFailure "cannot append WAL record") := by decide +kernel
  refine ⟨hthrows, (refused_write_iff hthrows).mpr (fun ⟨hf, _⟩ => ?_)⟩
  obtain ⟨log, seqno, hok, -⟩ := hf.roll
  rw [hok] at happ
  cases happ

/-- The new segment of the rotation cannot be created: `put` throws, and the value is there. -/
theorem not_refused_write_unseen :
    ((fresh (Config.small 1 1 1000)).put .never .rollOpen [97] [1]).2 =
        .error (Wal.ioFailure "cannot open WAL segment") ∧
      (fresh (Config.small 1 1 1000)).engine.get [97] = .ok none ∧
      ((fresh (Config.small 1 1 1000)).put .never .rollOpen [97] [1]).1.engine.get [97] =
        .ok (some [1]) ∧
      ¬∀ k, ((fresh (Config.small 1 1 1000)).put .never .rollOpen [97] [1]).1.engine.get k =
        (fresh (Config.small 1 1 1000)).engine.get k := by
  have hbefore : (fresh (Config.small 1 1 1000)).engine.get [97] = .ok none := by decide +kernel
  have hafter : ((fresh (Config.small 1 1 1000)).put .never .rollOpen [97] [1]).1.engine.get [97] =
      .ok (some [1]) := by decide +kernel
  refine ⟨by decide +kernel, hbefore, hafter, fun hsame => ?_⟩
  have hkey := hsame [97]
  rw [hbefore, hafter] at hkey
  cases hkey

end ByteStore
end LsmKv
