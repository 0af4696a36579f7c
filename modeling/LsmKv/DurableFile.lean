import LsmKv.Framing

/-!
# Append-only files with a durable prefix

A file records how much of it has reached stable storage. A crash keeps that much and an
arbitrary part of what was appended since, and what survives is durable. Where writes are buffered
the data are what the buffer was handed, and a failing flush loses some of it.
-/

namespace LsmKv

universe u

structure DurableFile (α : Type u) where
  data : List α
  synced : ℕ
  synced_le : synced ≤ data.length
  deriving DecidableEq, Repr

namespace DurableFile

variable {α : Type u}

/-- A file just created. -/
def new : DurableFile α := ⟨[], 0, le_rfl⟩

instance : Inhabited (DurableFile α) := ⟨new⟩

def append (f : DurableFile α) (xs : List α) : DurableFile α where
  data := f.data ++ xs
  synced := f.synced
  synced_le := by
    rw [List.length_append]
    exact Nat.le_add_right_of_le f.synced_le

def sync (f : DurableFile α) : DurableFile α := ⟨f.data, f.data.length, le_rfl⟩

def truncate (f : DurableFile α) (n : ℕ) : DurableFile α where
  data := f.data.take n
  synced := min f.synced n
  synced_le := by
    rw [List.length_take, min_comm]
    exact min_le_min_left n f.synced_le

/-- The last `n` entries are lost, as far as they are not on stable storage. -/
def lose (n : ℕ) (f : DurableFile α) : DurableFile α where
  data := f.data.take (max f.synced (f.data.length - n))
  synced := f.synced
  synced_le := by
    rw [List.length_take]
    exact le_min (le_max_left _ _) f.synced_le

/-- A file all of whose contents are on stable storage. -/
def durable (xs : List α) : DurableFile α := ⟨xs, xs.length, le_rfl⟩

theorem ext {f g : DurableFile α} (hd : f.data = g.data) (hs : f.synced = g.synced) : f = g := by
  cases f
  cases g
  simp_all

/-- What a crash may leave of a file. -/
def Survives (f g : DurableFile α) : Prop :=
  ∃ n, f.synced ≤ n ∧ g = durable (f.data.take n)

@[simp] theorem data_append (f : DurableFile α) (xs : List α) :
    (f.append xs).data = f.data ++ xs := rfl
@[simp] theorem synced_append (f : DurableFile α) (xs : List α) :
    (f.append xs).synced = f.synced := rfl
@[simp] theorem data_sync (f : DurableFile α) : f.sync.data = f.data := rfl
@[simp] theorem synced_sync (f : DurableFile α) : f.sync.synced = f.data.length := rfl
@[simp] theorem synced_lose (n : ℕ) (f : DurableFile α) : (f.lose n).synced = f.synced := rfl
@[simp] theorem data_durable (xs : List α) : (durable xs).data = xs := rfl
@[simp] theorem synced_durable (xs : List α) : (durable xs).synced = xs.length := rfl

theorem data_lose (n : ℕ) (f : DurableFile α) : (f.lose n).data <+: f.data := List.take_prefix _ _

theorem lose_zero (f : DurableFile α) : f.lose 0 = f := by
  refine ext ?_ rfl
  show f.data.take (max f.synced (f.data.length - 0)) = f.data
  exact List.take_of_length_le (le_max_right _ _)

/-- What is lost was appended last. -/
theorem data_lose_append (f : DurableFile α) {xs : List α} {n : ℕ} (h : n ≤ xs.length) :
    ((f.append xs).lose n).data = f.data ++ xs.take (xs.length - n) := by
  show (f.data ++ xs).take (max f.synced ((f.data ++ xs).length - n)) = _
  have hle := f.synced_le
  have hlength : max f.synced ((f.data ++ xs).length - n) = f.data.length + (xs.length - n) := by
    rw [List.length_append]
    omega
  rw [hlength, List.take_length_add_append]

theorem durable_survives {xs : List α} {g : DurableFile α} (h : (durable xs).Survives g) :
    g = durable xs := by
  obtain ⟨n, hn, rfl⟩ := h
  rw [data_durable, List.take_of_length_le hn]

end DurableFile
end LsmKv
