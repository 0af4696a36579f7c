import LsmKv.Compaction
import LsmKv.Loops
import Mathlib.Algebra.Order.BigOperators.Group.List

/-!
# What the picker picks

Two running minima over the windows of `k` adjacent tables, one of them over those that pass the
ratio test only.
-/

namespace LsmKv
open Sst (TableMeta)
namespace Compaction

/-- The `k` adjacent tables from position `i` on. -/
def windowAt (k : ℕ) (tables : List TableMeta) (i : ℕ) : List TableMeta := (tables.drop i).take k

def bytesOf (w : List TableMeta) : ℕ := (w.map (·.fileSize)).sum

/-- The ratio test of a window's largest and smallest file. -/
def Passes (withinRatio : ℕ → ℕ → Bool) (w : List TableMeta) : Prop :=
  ∃ large ∈ w, ∃ small ∈ w,
    (∀ t ∈ w, small.fileSize ≤ t.fileSize ∧ t.fileSize ≤ large.fileSize) ∧
      withinRatio large.fileSize small.fileSize = true

/-- The window at `i` has the fewest bytes of those with `P`, and is the newest such. -/
structure Optimal (k : ℕ) (tables : List TableMeta) (P : List TableMeta → Prop) (i : ℕ) :
    Prop where
  fits : i + k ≤ tables.length
  holds : P (windowAt k tables i)
  fewest : ∀ j, j + k ≤ tables.length → P (windowAt k tables j) →
    bytesOf (windowAt k tables i) ≤ bytesOf (windowAt k tables j)
  newest : ∀ j < i, P (windowAt k tables j) →
    bytesOf (windowAt k tables i) < bytesOf (windowAt k tables j)

/-- The pick is the window at `i`. -/
structure Picks (k : ℕ) (tables : List TableMeta) (p : CompactionPick) (i : ℕ) : Prop where
  ids : p.ids = (windowAt k tables i).map (·.id)
  totalBytes : p.totalBytes = bytesOf (windowAt k tables i)

section
variable {k : ℕ} {tables : List TableMeta}

theorem length_windowAt {i : ℕ} (h : i + k ≤ tables.length) :
    (windowAt k tables i).length = k := by
  rw [windowAt, List.length_take, List.length_drop]
  omega

theorem windows_eq (hk : 0 < k) (tables : List TableMeta) :
    windows k tables = (List.range (tables.length + 1 - k)).map (windowAt k tables) := by
  induction tables with
  | nil => rw [windows, List.length_nil, Nat.zero_add, Nat.sub_eq_zero_of_le hk]; rfl
  | cons t ts ih =>
    rw [windows, List.length_cons]
    split
    · rename_i hfits
      have hcount : ts.length + 1 + 1 - k = (ts.length + 1 - k) + 1 := by omega
      rw [hcount, List.range_succ_eq_map, List.map_cons, List.map_map, ih]
      rfl
    · rename_i hfits
      rw [Nat.sub_eq_zero_of_le (by omega)]
      rfl

/-! ## Sizes of a window -/

theorem bytesOf_windowAt_le (k : ℕ) (tables : List TableMeta) (i : ℕ) :
    bytesOf (windowAt k tables i) ≤ bytesOf tables :=
  List.Sublist.sum_le_sum
    (((List.take_sublist _ _).trans (List.drop_sublist _ _)).map _) (fun _ _ => Nat.zero_le _)

theorem le_bytesOf {w : List TableMeta} {t : TableMeta} (h : t ∈ w) : t.fileSize ≤ bytesOf w :=
  List.single_le_sum (fun _ _ => Nat.zero_le _) _ (List.mem_map_of_mem h)

theorem foldl_max_spec (l : List ℕ) (a : ℕ) :
    (∀ x ∈ l, x ≤ l.foldl max a) ∧ a ≤ l.foldl max a ∧ (l.foldl max a = a ∨ l.foldl max a ∈ l) := by
  induction l generalizing a with
  | nil => exact ⟨by simp, le_rfl, .inl rfl⟩
  | cons b l ih =>
    obtain ⟨hall, hle, hmem⟩ := ih (max a b)
    rw [List.foldl_cons]
    refine ⟨List.forall_mem_cons.mpr ⟨(le_max_right a b).trans hle, hall⟩,
      (le_max_left a b).trans hle, ?_⟩
    rcases hmem with hmem | hmem
    · rcases max_choice a b with hmax | hmax
      · exact .inl (hmem.trans hmax)
      · rw [hmem, hmax]
        exact .inr List.mem_cons_self
    · exact .inr (List.mem_cons_of_mem _ hmem)

theorem foldl_min_spec (l : List ℕ) (a : ℕ) :
    (∀ x ∈ l, l.foldl min a ≤ x) ∧ l.foldl min a ≤ a ∧ (l.foldl min a = a ∨ l.foldl min a ∈ l) := by
  induction l generalizing a with
  | nil => exact ⟨by simp, le_rfl, .inl rfl⟩
  | cons b l ih =>
    obtain ⟨hall, hle, hmem⟩ := ih (min a b)
    rw [List.foldl_cons]
    refine ⟨List.forall_mem_cons.mpr ⟨hle.trans (min_le_right a b), hall⟩,
      hle.trans (min_le_left a b), ?_⟩
    rcases hmem with hmem | hmem
    · rcases min_choice a b with hmin | hmin
      · exact .inl (hmem.trans hmin)
      · rw [hmem, hmin]
        exact .inr List.mem_cons_self
    · exact .inr (List.mem_cons_of_mem _ hmem)

/-- The running sizes end at those of the largest and the smallest file. -/
theorem passes_iff (withinRatio : ℕ → ℕ → Bool) {w : List TableMeta} (hne : w ≠ [])
    (hsize : bytesOf w < 2 ^ 64) :
    withinRatio ((w.map (·.fileSize)).foldl max 0) ((w.map (·.fileSize)).foldl min (2 ^ 64 - 1)) =
      true ↔ Passes withinRatio w := by
  obtain ⟨t₀, ht₀⟩ := List.exists_mem_of_ne_nil w hne
  obtain ⟨hmax, -, hmaxmem⟩ := foldl_max_spec (w.map (·.fileSize)) 0
  obtain ⟨hmin, -, hminmem⟩ := foldl_min_spec (w.map (·.fileSize)) (2 ^ 64 - 1)
  have hbelow : ∀ t ∈ w, t.fileSize < 2 ^ 64 := fun t ht => (le_bytesOf ht).trans_lt hsize
  have hlarge : ∃ large ∈ w, large.fileSize = (w.map (·.fileSize)).foldl max 0 := by
    rcases hmaxmem with hzero | hmem
    · have := hmax _ (List.mem_map_of_mem ht₀)
      exact ⟨t₀, ht₀, by omega⟩
    · exact List.mem_map.mp hmem
  have hsmall : ∃ small ∈ w, small.fileSize = (w.map (·.fileSize)).foldl min (2 ^ 64 - 1) := by
    rcases hminmem with htop | hmem
    · have := hmin _ (List.mem_map_of_mem ht₀)
      have := hbelow t₀ ht₀
      exact ⟨t₀, ht₀, by omega⟩
    · exact List.mem_map.mp hmem
  constructor
  · obtain ⟨large, hlargew, hlarge⟩ := hlarge
    obtain ⟨small, hsmallw, hsmall⟩ := hsmall
    intro h
    exact ⟨large, hlargew, small, hsmallw, fun t ht =>
      ⟨hsmall ▸ hmin _ (List.mem_map_of_mem ht), hlarge ▸ hmax _ (List.mem_map_of_mem ht)⟩,
      hlarge ▸ hsmall ▸ h⟩
  · rintro ⟨large, hlargew, small, hsmallw, hall, h⟩
    obtain ⟨l, hl, hleq⟩ := hlarge
    obtain ⟨m, hm, hmeq⟩ := hsmall
    have h₁ : large.fileSize = (w.map (·.fileSize)).foldl max 0 :=
      le_antisymm (hmax _ (List.mem_map_of_mem hlargew)) (hleq ▸ (hall l hl).2)
    have h₂ : small.fileSize = (w.map (·.fileSize)).foldl min (2 ^ 64 - 1) :=
      le_antisymm (hmeq ▸ (hall m hm).1) (hmin _ (List.mem_map_of_mem hsmallw))
    rw [← h₁, ← h₂]
    exact h

/-! ## The two candidates -/

def pickOf (k : ℕ) (tables : List TableMeta) (reason : PickReason) (i : ℕ) : CompactionPick :=
  ⟨(windowAt k tables i).map (·.id), bytesOf (windowAt k tables i), reason⟩

theorem fewerBytes_pickOf (k : ℕ) (tables : List TableMeta) (reason : PickReason) (n : ℕ)
    (best : Option ℕ) :
    fewerBytes n (best.map (pickOf k tables reason)) = true ↔
      ∀ i ∈ best, n < bytesOf (windowAt k tables i) := by
  cases best <;> simp [fewerBytes, pickOf]

/-- One of the two updates of `considerWindow`. -/
theorem candidate_next (reason : PickReason) {P : List TableMeta → Prop} {n : ℕ} {best : Option ℕ}
    (h : LeastSoFar (fun i => bytesOf (windowAt k tables i)) (fun i => P (windowAt k tables i)) n
      best) {test : Bool} (htest : test = true ↔ P (windowAt k tables n)) :
    ∃ best', (if test && fewerBytes (bytesOf (windowAt k tables n))
          (best.map (pickOf k tables reason)) then some (pickOf k tables reason n)
        else best.map (pickOf k tables reason)) = best'.map (pickOf k tables reason) ∧
      LeastSoFar (fun i => bytesOf (windowAt k tables i)) (fun i => P (windowAt k tables i)) (n + 1)
        best' := by
  split
  · rename_i hboth
    rw [Bool.and_eq_true, htest, fewerBytes_pickOf] at hboth
    exact ⟨some n, rfl, h.take hboth.1 hboth.2⟩
  · rename_i hnot
    rw [Bool.and_eq_true, htest, fewerBytes_pickOf] at hnot
    refine ⟨best, rfl, h.skip (fun hP => ?_)⟩
    by_contra hall
    exact hnot ⟨hP, fun i hi => lt_of_not_ge (fun hle => hall ⟨i, hi, hle⟩)⟩

/-- After `n` windows, the candidates are the first least of those that pass and of all. -/
theorem foldl_considerWindow (withinRatio : ℕ → ℕ → Bool) (hk : 0 < k)
    (hsize : bytesOf tables < 2 ^ 64) {n : ℕ} (hn : n ≤ tables.length + 1 - k) :
    ∃ best fallback,
      ((List.range n).map (windowAt k tables)).foldl (considerWindow withinRatio) (none, none) =
        (best.map (pickOf k tables .sizeSimilar), fallback.map (pickOf k tables .fallback)) ∧
      LeastSoFar (fun i => bytesOf (windowAt k tables i))
        (fun i => Passes withinRatio (windowAt k tables i)) n best ∧
      LeastSoFar (fun i => bytesOf (windowAt k tables i)) (fun _ => True) n fallback := by
  induction n with
  | zero => exact ⟨none, none, rfl, fun j hj => absurd hj (Nat.not_lt_zero j),
      fun j hj => absurd hj (Nat.not_lt_zero j)⟩
  | succ n ih =>
    obtain ⟨best, fallback, hfold, hbest, hfallback⟩ := ih (by omega)
    have hwsize : bytesOf (windowAt k tables n) < 2 ^ 64 :=
      (bytesOf_windowAt_le k tables n).trans_lt hsize
    have hne : windowAt k tables n ≠ [] := by
      refine List.ne_nil_of_length_pos ?_
      rw [length_windowAt (by omega)]
      exact hk
    have htotal : ((windowAt k tables n).map (·.fileSize)).sum % 2 ^ 64 =
        bytesOf (windowAt k tables n) := Nat.mod_eq_of_lt hwsize
    obtain ⟨best', hbest', hleast⟩ := candidate_next .sizeSimilar hbest
      (passes_iff withinRatio hne hwsize)
    obtain ⟨fallback', hfallback', hleast'⟩ := candidate_next .fallback
      (P := fun _ => True) hfallback (iff_of_true rfl trivial)
    refine ⟨best', fallback', ?_, hleast, hleast'⟩
    rw [List.range_succ, List.map_append, List.foldl_append, hfold, ← hbest', ← hfallback']
    simp only [List.map_cons, List.map_nil, List.foldl_cons, List.foldl_nil, considerWindow, htotal,
      Bool.true_and]
    rfl

theorem foldl_considerWindow_ne_none (withinRatio : ℕ → ℕ → Bool) {ws : List (List TableMeta)}
    {picks : Option CompactionPick × Option CompactionPick} (h : ws ≠ [] ∨ picks.2 ≠ none) :
    (ws.foldl (considerWindow withinRatio) picks).2 ≠ none := by
  induction ws generalizing picks with
  | nil => exact h.resolve_left (fun hne => hne rfl)
  | cons w ws ih =>
    refine ih (.inr ?_)
    rw [considerWindow]
    rcases hpick : picks.2 with _ | p
    · simp [fewerBytes]
    · dsimp only
      split <;> simp

/-- Nothing is picked only for want of tables. -/
theorem pickCompaction_eq_none {fan_in : ℕ} {withinRatio : ℕ → ℕ → Bool} :
    pickCompaction fan_in withinRatio tables = none ↔ tables.length < max 2 fan_in := by
  have hk : 0 < max 2 fan_in := by omega
  rw [pickCompaction]
  dsimp only
  split
  · rename_i hfew
    simp [hfew]
  · rename_i hmany
    have hne : windows (max 2 fan_in) tables ≠ [] := by
      rw [windows_eq hk]
      simp only [ne_eq, List.map_eq_nil_iff, List.range_eq_nil]
      omega
    have hsome : ((windows (max 2 fan_in) tables).foldl (considerWindow withinRatio)
        (none, none)).2 ≠ none := foldl_considerWindow_ne_none withinRatio (.inl hne)
    simp [Option.or_eq_none_iff, hsome, hmany]

/-- The first least of all windows is the optimal one. -/
theorem optimal_of_firstLeast {P : List TableMeta → Prop} {i : ℕ}
    (h : FirstLeast (fun i => bytesOf (windowAt k tables i)) (fun i => P (windowAt k tables i))
      (tables.length + 1 - k) i) : Optimal k tables P i := by
  have hlt := h.lt
  exact ⟨by omega, h.holds, fun j hj hP => h.least j (by omega) hP, h.first⟩

end

/-- The picker returns nothing exactly when there are too few tables; else a window, the newest
of the fewest bytes among those that pass the ratio test, or among all if none passes. -/
theorem pickCompaction_optimal (size_tiered_fan_in : ℕ) (withinRatio : ℕ → ℕ → Bool)
    (tables : List TableMeta) (hsize : bytesOf tables < 2 ^ 64) :
    (pickCompaction size_tiered_fan_in withinRatio tables = none ↔
      tables.length < max 2 size_tiered_fan_in) ∧
    ∀ p, pickCompaction size_tiered_fan_in withinRatio tables = some p →
      ∃ i, Picks (max 2 size_tiered_fan_in) tables p i ∧
        ((p.reason = .sizeSimilar ∧
            Optimal (max 2 size_tiered_fan_in) tables (Passes withinRatio) i) ∨
          (p.reason = .fallback ∧
            Optimal (max 2 size_tiered_fan_in) tables (fun _ => True) i ∧
            ∀ j, j + max 2 size_tiered_fan_in ≤ tables.length →
              ¬Passes withinRatio (windowAt (max 2 size_tiered_fan_in) tables j))) := by
  refine ⟨pickCompaction_eq_none, fun p hp => ?_⟩
  have hk : 0 < max 2 size_tiered_fan_in := by omega
  rw [pickCompaction] at hp
  generalize max 2 size_tiered_fan_in = k at hk hp ⊢
  obtain ⟨best, fallback, hfold, hbest, hfallback⟩ :=
    foldl_considerWindow withinRatio hk hsize (le_refl (tables.length + 1 - k))
  dsimp only at hp
  rw [windows_eq hk, hfold] at hp
  split at hp
  · cases hp
  rename_i hmany
  cases best with
  | none =>
    cases fallback with
    | none => exact absurd trivial (hfallback 0 (by omega))
    | some i =>
      obtain rfl := Option.some.inj hp
      exact ⟨i, ⟨rfl, rfl⟩, .inr ⟨rfl, optimal_of_firstLeast hfallback,
        fun j hj => hbest j (by omega)⟩⟩
  | some i =>
    obtain rfl := Option.some.inj hp
    exact ⟨i, ⟨rfl, rfl⟩, .inl ⟨rfl, optimal_of_firstLeast hbest⟩⟩

/-- Tables of 50, 10 and 12 bytes. -/
def threeTables : List TableMeta :=
  [⟨3, [97], [98], 5, 6, 0, 50, 2, .ten, 1⟩, ⟨2, [97], [98], 3, 4, 0, 10, 2, .ten, 1⟩,
    ⟨1, [97], [98], 1, 2, 0, 12, 2, .ten, 1⟩]

theorem pickCompaction_optimal_threeTables :
    ∃ i, Picks 2 threeTables ⟨[2, 1], 22, .sizeSimilar⟩ i ∧
      Optimal 2 threeTables (Passes (fun large small => large ≤ 2 * small)) i := by
  obtain ⟨i, hpicks, h | h⟩ := (pickCompaction_optimal 2 (fun large small => large ≤ 2 * small)
    threeTables (by decide)).2 ⟨[2, 1], 22, .sizeSimilar⟩ (by decide)
  · exact ⟨i, hpicks, h.2⟩
  · cases h.1

end Compaction
end LsmKv
