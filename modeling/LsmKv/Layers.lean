import LsmKv.OrderedMap

/-!
# Stacks of ordered maps

A key is looked up in the upper map first. One map can stand for a whole stack: it takes the
lower maps' entries first and lets the upper ones overwrite them.
-/

namespace LsmKv
namespace OrderedMap

universe u v

variable {κ : Type u} {ν : Type v} [LinearOrder κ]

/-- The value in the uppermost map that has the key. -/
def firstHit (k : κ) : List (OrderedMap κ ν) → Option ν
  | [] => none
  | m :: ms => (m.find? k).or (firstHit k ms)

@[simp] theorem firstHit_nil (k : κ) : firstHit k ([] : List (OrderedMap κ ν)) = none := rfl

@[simp] theorem firstHit_cons (k : κ) (m : OrderedMap κ ν) (ms : List (OrderedMap κ ν)) :
    firstHit k (m :: ms) = (m.find? k).or (firstHit k ms) := rfl

theorem firstHit_append (k : κ) (ms ns : List (OrderedMap κ ν)) :
    firstHit k (ms ++ ns) = (firstHit k ms).or (firstHit k ns) := by
  induction ms with
  | nil => rfl
  | cons m ms ih => rw [List.cons_append, firstHit_cons, ih, firstHit_cons, Option.or_assoc]

theorem firstHit_eq_none {k : κ} {ms : List (OrderedMap κ ν)} :
    firstHit k ms = none ↔ ∀ m ∈ ms, m.find? k = none := by
  induction ms with
  | nil => simp
  | cons m ms ih => rw [firstHit_cons, Option.or_eq_none_iff, ih, List.forall_mem_cons]

/-- A hit splits the stack: no map above it has the key. -/
theorem firstHit_eq_some {k : κ} {v : ν} {ms : List (OrderedMap κ ν)}
    (h : firstHit k ms = some v) :
    ∃ upper m lower, ms = upper ++ m :: lower ∧ m.find? k = some v ∧
      ∀ u ∈ upper, u.find? k = none := by
  induction ms with
  | nil => cases h
  | cons m ms ih =>
    rcases hm : m.find? k with _ | w
    · rw [firstHit_cons, hm] at h
      obtain ⟨upper, n, lower, rfl, hn, hup⟩ := ih h
      exact ⟨m :: upper, n, lower, rfl, hn, List.forall_mem_cons.mpr ⟨hm, hup⟩⟩
    · rw [firstHit_cons, hm] at h
      exact ⟨[], m, ms, rfl, hm.trans h, by simp⟩

/-! ## One map for a stack -/

/-- The entries of `n` put over those of `m`, one by one. -/
def insertAll (m n : OrderedMap κ ν) : OrderedMap κ ν :=
  n.entries.foldl (fun m p => m.insert p.1 p.2) m

theorem find?_foldl_insert_not_mem {l : List (κ × ν)} {k : κ} (h : ∀ p ∈ l, p.1 ≠ k)
    (m : OrderedMap κ ν) :
    (l.foldl (fun m p => m.insert p.1 p.2) m).find? k = m.find? k := by
  induction l generalizing m with
  | nil => rfl
  | cons p l ih =>
    obtain ⟨hp, hl⟩ := List.forall_mem_cons.mp h
    rw [List.foldl_cons, ih hl, find?_insert_of_ne _ _ hp]

theorem find?_insertAll (m n : OrderedMap κ ν) (k : κ) :
    (m.insertAll n).find? k = (n.find? k).or (m.find? k) := by
  rcases hn : n.find? k with _ | v
  · rw [insertAll, find?_foldl_insert_not_mem (find?_eq_none_iff.mp hn), Option.none_or]
  · rw [insertAll, find?_foldl_insert (fun v => v) n.sorted m (find?_eq_some_iff.mp hn),
      Option.some_or]

/-- One map with the entries of a stack, put in from the lowest map to the uppermost. -/
def overlay (ms : List (OrderedMap κ ν)) : OrderedMap κ ν :=
  ms.foldr (fun m below => below.insertAll m) ∅

theorem find?_overlay (ms : List (OrderedMap κ ν)) (k : κ) :
    (overlay ms).find? k = firstHit k ms := by
  induction ms with
  | nil => rfl
  | cons m ms ih =>
    show ((overlay ms).insertAll m).find? k = _
    rw [find?_insertAll, ih, firstHit_cons]

/-! ## Keeping some entries -/

def filter (p : κ → ν → Bool) (m : OrderedMap κ ν) : OrderedMap κ ν :=
  ⟨m.entries.filter (fun e => p e.1 e.2), m.sorted.filter _⟩

theorem find?_filter (p : κ → ν → Bool) (m : OrderedMap κ ν) (k : κ) :
    (m.filter p).find? k = (m.find? k).filter (p k) := by
  ext v
  rw [find?_eq_some_iff, Option.filter_eq_some_iff, find?_eq_some_iff]
  exact List.mem_filter

/-- Entries put into an empty map one by one are the entries. -/
theorem foldl_insert_empty {l : List (κ × ν)} (h : l.Pairwise (fun a b => a.1 < b.1)) :
    l.foldl (fun m p => m.insert p.1 p.2) ∅ = (⟨l, h⟩ : OrderedMap κ ν) := by
  apply ext_find?
  intro k
  rcases hk : findList k l with _ | v
  · rw [find?_foldl_insert_not_mem (findList_eq_none_iff.mp hk)]
    exact hk.symm
  · rw [find?_foldl_insert (fun v => v) h ∅ (mem_of_findList hk)]
    exact hk.symm

end OrderedMap
end LsmKv
