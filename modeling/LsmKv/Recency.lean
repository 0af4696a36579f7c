import Mathlib.Algebra.BigOperators.Group.List.Basic
import Mathlib.Algebra.GroupWithZero.Nat
import Mathlib.Algebra.Order.BigOperators.Group.List
import Mathlib.Data.List.Infix
import Mathlib.Tactic.Common

/-!
# Lists in order of last use

What a least-recently-used list is in itself: an order told by the history of uses, and the
longest beginning that fits a budget.
-/

namespace LsmKv
namespace Recency

variable {α : Type*}

/-! ## Order -/

section
variable [BEq α] {uses l l' : List α} {a : α}

/-- The list is in order of last use. `uses` is the history, the latest use first. -/
structure Ordered (uses l : List α) : Prop where
  used : l ⊆ uses
  sorted : l.Pairwise (fun a b => uses.idxOf a < uses.idxOf b)

theorem Ordered.nil (uses : List α) : Ordered uses [] := ⟨List.nil_subset _, .nil⟩

theorem Ordered.nodup (h : Ordered uses l) : l.Nodup :=
  h.sorted.imp (fun hlt heq => (heq ▸ hlt).false)

theorem Ordered.sublist (h : Ordered uses l) (hl : l'.Sublist l) : Ordered uses l' :=
  ⟨fun _ ha => h.used (hl.subset ha), h.sorted.sublist hl⟩

variable [LawfulBEq α]

/-- A use of something else. -/
theorem Ordered.other (h : Ordered uses l) (ha : a ∉ l) : Ordered (a :: uses) l := by
  have hne : ∀ b ∈ l, a ≠ b := fun b hb heq => ha (heq ▸ hb)
  refine ⟨fun b hb => List.mem_cons_of_mem _ (h.used hb), ?_⟩
  refine h.sorted.imp_of_mem (fun {b c} hb hc hlt => ?_)
  rw [List.idxOf_cons_ne _ (hne b hb), List.idxOf_cons_ne _ (hne c hc)]
  exact Nat.succ_lt_succ hlt

/-- What is used comes first. -/
theorem Ordered.use (h : Ordered uses l) (a : α) : Ordered (a :: uses) (a :: l.erase a) := by
  have hnot : a ∉ l.erase a := fun ha => (h.nodup.mem_erase_iff.mp ha).1 rfl
  have hrest := (h.sublist List.erase_sublist).other hnot
  refine ⟨List.cons_subset.mpr ⟨List.mem_cons_self, hrest.used⟩,
    List.pairwise_cons.mpr ⟨fun b hb => ?_, hrest.sorted⟩⟩
  have hne : a ≠ b := fun heq => hnot (heq ▸ hb)
  rw [List.idxOf_cons_self, List.idxOf_cons_ne _ hne]
  exact Nat.succ_pos _

end

/-! ## Budget -/

section
variable {w : α → ℕ} {cap : ℕ} {l p : List α}

/-- The total weight of a list. -/
def total (w : α → ℕ) (l : List α) : ℕ := (l.map w).sum

@[simp] theorem total_nil : total w [] = 0 := rfl

@[simp] theorem total_cons (a : α) : total w (a :: l) = w a + total w l := rfl

theorem total_append (l l' : List α) : total w (l ++ l') = total w l + total w l' := by
  rw [total, List.map_append, List.sum_append]
  rfl

theorem total_perm {l l' : List α} (h : l.Perm l') : total w l = total w l' :=
  (h.map w).sum_eq

/-- `p` is the longest beginning of `l` that weighs at most `cap`. -/
structure LongestFitting (w : α → ℕ) (cap : ℕ) (l p : List α) : Prop where
  begins : p <+: l
  fits : total w p ≤ cap
  longest : ∀ q, q <+: l → total w q ≤ cap → q <+: p

/-- Nothing that fits is lost when the last element of a list that does not fit goes. -/
theorem fitting_dropLast (hp : ∀ q, q <+: l → total w q ≤ cap → q <+: p)
    (hover : cap < total w p) {q : List α} (hq : q <+: l) (hfits : total w q ≤ cap) :
    q <+: p.dropLast := by
  have hqp := hp q hq hfits
  rcases p.eq_nil_or_concat with rfl | ⟨p, a, rfl⟩
  · simpa using hqp
  · rw [List.concat_eq_append] at hqp hover ⊢
    rw [List.dropLast_concat]
    rcases List.prefix_concat_iff.mp hqp with heq | hqp
    · rw [heq] at hfits
      omega
    · exact hqp

end

end Recency
end LsmKv
