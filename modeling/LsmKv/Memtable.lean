import LsmKv.Bytes
import LsmKv.OrderedMap

/-!
# The memtable

An ordered in-memory table with the latest version of each key, and its size accounting.
-/

namespace LsmKv

/-- One row. A tombstone is a row: it hides older values. -/
structure MemEntry where
  value : Bytes
  seqno : ℕ
  tombstone : Bool
  deriving DecidableEq, Repr

structure Memtable where
  overhead : ℕ
  map : OrderedMap Bytes MemEntry := ∅
  bytes : ℕ := 0

namespace Memtable

def entrySize (m : Memtable) (key value : Bytes) : ℕ := key.length + value.length + m.overhead

/-- Insert or overwrite, keeping only the latest version. -/
def apply (key value : Bytes) (seqno : ℕ) (tombstone : Bool) (m : Memtable) : Memtable :=
  match m.map.find? key with
  | some old => { m with
      map := m.map.insert key ⟨value, seqno, tombstone⟩
      bytes := m.bytes - m.entrySize key old.value + m.entrySize key value }
  | none => { m with
      map := m.map.insert key ⟨value, seqno, tombstone⟩
      bytes := m.bytes + m.entrySize key value }

def find (m : Memtable) (key : Bytes) : Option MemEntry := m.map.find? key

def entries (m : Memtable) : ℕ := m.map.entries.length

@[simp] theorem map_apply (key value : Bytes) (seqno : ℕ) (tombstone : Bool) (m : Memtable) :
    (m.apply key value seqno tombstone).map = m.map.insert key ⟨value, seqno, tombstone⟩ := by
  rw [apply]
  split <;> rfl

end Memtable
end LsmKv
