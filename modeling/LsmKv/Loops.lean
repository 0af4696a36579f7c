import Mathlib.Algebra.GroupWithZero.Nat
import Mathlib.Tactic.Common

/-!
# Searching sorted ranges and walking buffers

Three loops over positions: the halving of `std::upper_bound`, the bisection of a half-open
interval, and the walk that decodes one item after another until it reaches the end.
-/

namespace LsmKv

/-! ## Halving -/

def upperBoundLoop (after : ℕ → Bool) : ℕ → ℕ → ℕ → ℕ
  | 0, first, _ => first
  | fuel + 1, first, len =>
    if len = 0 then first
    else if after (first + len / 2) then upperBoundLoop after fuel first (len / 2)
    else upperBoundLoop after fuel (first + len / 2 + 1) (len - len / 2 - 1)

/-- `std::upper_bound` over `n` elements, `after i` saying that element `i` lies after the
value searched for. -/
def upperBound (after : ℕ → Bool) (n : ℕ) : ℕ := upperBoundLoop after n 0 n

theorem upperBoundLoop_spec {after : ℕ → Bool} {n : ℕ}
    (hmono : ∀ i j, i ≤ j → j < n → after i = true → after j = true)
    {fuel first len : ℕ} (hfuel : len ≤ fuel) (hn : first + len ≤ n)
    (hlow : ∀ i < first, after i = false) (hhigh : ∀ i, first + len ≤ i → i < n → after i = true) :
    upperBoundLoop after fuel first len ≤ n ∧
      (∀ i < upperBoundLoop after fuel first len, after i = false) ∧
      ∀ i, upperBoundLoop after fuel first len ≤ i → i < n → after i = true := by
  induction fuel generalizing first len with
  | zero =>
    obtain rfl : len = 0 := by omega
    exact ⟨hn, hlow, hhigh⟩
  | succ fuel ih =>
    rw [upperBoundLoop]
    split
    · rename_i hzero
      exact ⟨by omega, hlow, fun i hi => hhigh i (by omega)⟩
    split
    · rename_i hafter
      apply ih
      · omega
      · omega
      · exact hlow
      · intro i hi hin
        exact hmono _ i hi hin hafter
    · rename_i hbefore
      have hmid : after (first + len / 2) = false := by simpa using hbefore
      apply ih
      · omega
      · omega
      · intro i hi
        by_contra hne
        have := hmono i _ (Nat.lt_succ_iff.mp hi) (by omega) (by simpa using hne)
        rw [hmid] at this
        cases this
      · intro i hi hin
        exact hhigh i (by omega) hin

/-- On a range that is partitioned, the point of partition. -/
theorem upperBound_spec {after : ℕ → Bool} {n : ℕ}
    (hmono : ∀ i j, i ≤ j → j < n → after i = true → after j = true) :
    upperBound after n ≤ n ∧ (∀ i < upperBound after n, after i = false) ∧
      ∀ i, upperBound after n ≤ i → i < n → after i = true := by
  apply upperBoundLoop_spec hmono
  · exact Nat.le_refl n
  · omega
  · intro i hi
    omega
  · intro i hi hin
    omega

/-! ## Running minimum -/

section
variable {f : ℕ → ℕ} {P : ℕ → Prop} {n i : ℕ}

/-- Of the positions below `n` with `P`, the first with the least value. -/
structure FirstLeast (f : ℕ → ℕ) (P : ℕ → Prop) (n i : ℕ) : Prop where
  lt : i < n
  holds : P i
  least : ∀ j < n, P j → f i ≤ f j
  first : ∀ j < i, P j → f i < f j

/-- What a loop that keeps the least has after `n` positions. -/
def LeastSoFar (f : ℕ → ℕ) (P : ℕ → Prop) (n : ℕ) : Option ℕ → Prop
  | none => ∀ j < n, ¬P j
  | some i => FirstLeast f P n i

theorem LeastSoFar.take {best : Option ℕ} (h : LeastSoFar f P n best) (hn : P n)
    (hless : ∀ i ∈ best, f n < f i) : LeastSoFar f P (n + 1) (some n) := by
  have hbefore : ∀ j < n, P j → f n < f j := by
    intro j hj hPj
    cases best with
    | none => exact absurd hPj (h j hj)
    | some i => exact Nat.lt_of_lt_of_le (hless i rfl) (h.least j hj hPj)
  refine ⟨Nat.lt_succ_self n, hn, fun j hj hPj => ?_, hbefore⟩
  rcases Nat.lt_succ_iff_lt_or_eq.mp hj with hj | rfl
  · exact Nat.le_of_lt (hbefore j hj hPj)
  · exact Nat.le_refl _

theorem LeastSoFar.skip {best : Option ℕ} (h : LeastSoFar f P n best)
    (hn : P n → ∃ i ∈ best, f i ≤ f n) : LeastSoFar f P (n + 1) best := by
  cases best with
  | none =>
    intro j hj hPj
    rcases Nat.lt_succ_iff_lt_or_eq.mp hj with hj | rfl
    · exact h j hj hPj
    · obtain ⟨i, hi, -⟩ := hn hPj
      cases hi
  | some i =>
    refine ⟨Nat.lt_succ_of_lt h.lt, h.holds, fun j hj hPj => ?_, h.first⟩
    rcases Nat.lt_succ_iff_lt_or_eq.mp hj with hj | rfl
    · exact h.least j hj hPj
    · obtain ⟨i, hi, hle⟩ := hn hPj
      cases hi
      exact hle

end

/-! ## Bisection -/

section
variable {ε : Type}

/-- Halve `[lo, hi)` while it holds more than one position, going up when `test` holds in the
middle. -/
def bisect (test : ℕ → Except ε Bool) : ℕ → ℕ → ℕ → Except ε ℕ
  | 0, lo, _ => .ok lo
  | fuel + 1, lo, hi =>
    if 1 < hi - lo then
      match test (lo + (hi - lo) / 2) with
      | .error e => .error e
      | .ok true => bisect test fuel (lo + (hi - lo) / 2) hi
      | .ok false => bisect test fuel lo (lo + (hi - lo) / 2)
    else .ok lo

/-- It ends at the last position of the interval where the test holds, or at its start. -/
theorem bisect_spec {test : ℕ → Except ε Bool} {holds : ℕ → Bool} {start stop : ℕ}
    (htest : ∀ i, start < i → i < stop → test i = .ok (holds i))
    (hanti : ∀ i j, start < i → i ≤ j → j < stop → holds j = true → holds i = true)
    {fuel lo hi : ℕ} (hfuel : hi - lo ≤ fuel) (hlo : start ≤ lo) (hlt : lo < hi) (hhi : hi ≤ stop)
    (hlow : lo = start ∨ holds lo = true) (hhigh : ∀ i, hi ≤ i → i < stop → holds i = false) :
    ∃ r, bisect test fuel lo hi = .ok r ∧ start ≤ r ∧ r < stop ∧ (r = start ∨ holds r = true) ∧
      ∀ i, r < i → i < stop → holds i = false := by
  induction fuel generalizing lo hi with
  | zero => omega
  | succ fuel ih =>
    rw [bisect]
    split
    · rename_i hwide
      have hmid := htest (lo + (hi - lo) / 2) (by omega) (by omega)
      rcases hholds : holds (lo + (hi - lo) / 2) with _ | _
      · rw [hmid, hholds]
        apply ih
        · omega
        · exact hlo
        · omega
        · omega
        · exact hlow
        · intro i hi' hin
          by_contra hne
          have := hanti _ i (by omega) hi' hin (by simpa using hne)
          rw [hholds] at this
          cases this
      · rw [hmid, hholds]
        apply ih
        · omega
        · omega
        · omega
        · exact hhi
        · exact .inr hholds
        · exact hhigh
    · exact ⟨lo, rfl, hlo, by omega, hlow, fun i hi' hin => hhigh i (by omega) hin⟩

/-- The bisection with no bound on its turns: from `[lo, hi)` it ends in `r`. -/
inductive Bisects (test : ℕ → Except ε Bool) : ℕ → ℕ → Except ε ℕ → Prop where
  | narrow {lo hi} (done : ¬1 < hi - lo) : Bisects test lo hi (.ok lo)
  | fault {lo hi e} (wide : 1 < hi - lo) (h : test (lo + (hi - lo) / 2) = .error e) :
      Bisects test lo hi (.error e)
  | up {lo hi r} (wide : 1 < hi - lo) (h : test (lo + (hi - lo) / 2) = .ok true)
      (rest : Bisects test (lo + (hi - lo) / 2) hi r) : Bisects test lo hi r
  | down {lo hi r} (wide : 1 < hi - lo) (h : test (lo + (hi - lo) / 2) = .ok false)
      (rest : Bisects test lo (lo + (hi - lo) / 2) r) : Bisects test lo hi r

/-- A turn for every position of the interval is enough. -/
theorem bisects_bisect (test : ℕ → Except ε Bool) {fuel lo hi : ℕ} (h : hi - lo ≤ fuel) :
    Bisects test lo hi (bisect test fuel lo hi) := by
  induction fuel generalizing lo hi with
  | zero => exact .narrow (by omega)
  | succ fuel ih =>
    rw [bisect]
    split
    · rename_i wide
      split
      · rename_i htest
        exact .fault wide htest
      · rename_i htest
        exact .up wide htest (ih (by omega))
      · rename_i htest
        exact .down wide htest (ih (by omega))
    · rename_i done
      exact .narrow done

theorem Bisects.unique {test : ℕ → Except ε Bool} {lo hi : ℕ} {r r' : Except ε ℕ}
    (h : Bisects test lo hi r) (h' : Bisects test lo hi r') : r = r' := by
  induction h with
  | narrow done =>
    rcases h' with _ | ⟨wide, -⟩ | ⟨wide, -, -⟩ | ⟨wide, -, -⟩
    · rfl
    all_goals exact absurd wide done
  | fault wide htest =>
    rcases h' with done | ⟨-, htest'⟩ | ⟨-, htest', -⟩ | ⟨-, htest', -⟩
    · exact absurd wide done
    · rw [htest] at htest'
      rw [Except.error.inj htest']
    all_goals
      rw [htest] at htest'
      cases htest'
  | up wide htest rest ih =>
    rcases h' with done | ⟨-, htest'⟩ | ⟨-, htest', rest'⟩ | ⟨-, htest', -⟩
    · exact absurd wide done
    · rw [htest] at htest'
      cases htest'
    · exact ih rest'
    · rw [htest] at htest'
      cases htest'
  | down wide htest rest ih =>
    rcases h' with done | ⟨-, htest'⟩ | ⟨-, htest', -⟩ | ⟨-, htest', rest'⟩
    · exact absurd wide done
    · rw [htest] at htest'
      cases htest'
    · rw [htest] at htest'
      cases htest'
    · exact ih rest'

theorem Bisects.range {test : ℕ → Except ε Bool} {lo hi r : ℕ} (h : Bisects test lo hi (.ok r))
    (hlt : lo < hi) : lo ≤ r ∧ r < hi := by
  generalize hr : (Except.ok r : Except ε ℕ) = res at h
  induction h with
  | narrow done =>
    obtain rfl := Except.ok.inj hr
    exact ⟨Nat.le_refl _, hlt⟩
  | fault wide htest => cases hr
  | up wide htest rest ih =>
    obtain ⟨hle, hr'⟩ := ih (by omega) hr
    exact ⟨by omega, hr'⟩
  | down wide htest rest ih =>
    obtain ⟨hle, hr'⟩ := ih (by omega) hr
    exact ⟨hle, by omega⟩

/-! ## Walking -/

variable {σ β : Type}

/-- `while (pos < stop)`, each turn reading at `pos` and moving on. -/
def walk (step : σ → ℕ → Except ε (σ × ℕ)) (stop : ℕ) : ℕ → σ → ℕ → Except ε σ
  | 0, s, _ => .ok s
  | fuel + 1, s, pos =>
    if pos < stop then
      match step s pos with
      | .error e => .error e
      | .ok (s', pos') => walk step stop fuel s' pos'
    else .ok s

/-- What every turn keeps, a walk keeps. -/
theorem walk_keeps {P : σ → Prop} {step : σ → ℕ → Except ε (σ × ℕ)}
    (hstep : ∀ s pos s' next, P s → step s pos = .ok (s', next) → P s') {stop fuel pos : ℕ}
    {s s' : σ} (hs : P s) (h : walk step stop fuel s pos = .ok s') : P s' := by
  induction fuel generalizing s pos with
  | zero => exact Except.ok.inj h ▸ hs
  | succ fuel ih =>
    rw [walk] at h
    split at h
    · split at h
      · cases h
      · rename_i s₁ next hturn
        exact ih (hstep s pos s₁ next hs hturn) h
    · exact Except.ok.inj h ▸ hs

/-- When the positions up to `stop` are those of a list of items, the walk folds over them. -/
theorem walk_items {step : σ → ℕ → Except ε (σ × ℕ)} {f : σ → β → σ} {size : β → ℕ}
    {stop : ℕ} {xs : List β} {s : σ} {pos fuel : ℕ} (hsize : ∀ x ∈ xs, 0 < size x)
    (hfuel : xs.length ≤ fuel) (hstop : pos + (xs.map size).sum = stop)
    (hstep : ∀ s pre x post, xs = pre ++ x :: post →
      step s (pos + (pre.map size).sum) = .ok (f s x, pos + (pre.map size).sum + size x)) :
    walk step stop fuel s pos = .ok (xs.foldl f s) := by
  induction xs generalizing s pos fuel with
  | nil =>
    have hend : ¬pos < stop := by
      rw [← hstop]
      simp
    cases fuel with
    | zero => rfl
    | succ fuel => rw [walk, if_neg hend, List.foldl_nil]
  | cons x xs ih =>
    cases fuel with
    | zero => simp at hfuel
    | succ fuel =>
      have hx := hsize x List.mem_cons_self
      rw [List.map_cons, List.sum_cons] at hstop
      have hhead := hstep s [] x xs rfl
      simp only [List.map_nil, List.sum_nil, Nat.add_zero] at hhead
      rw [walk, if_pos (by omega), hhead, List.foldl_cons]
      apply ih
      · exact fun y hy => hsize y (List.mem_cons_of_mem _ hy)
      · simpa using hfuel
      · omega
      · intro s pre y post hxs
        have hnext := hstep s (x :: pre) y post (by rw [hxs, List.cons_append])
        rw [List.map_cons, List.sum_cons] at hnext
        rwa [Nat.add_assoc pos]

/-! ### Buffers of any content -/

/-- From `pos` up to `stop` the buffer spells the items; `at_ pos x next` says that `x` stands
at `pos` and the next one at `next`. -/
inductive Spells (at_ : ℕ → β → ℕ → Prop) (stop : ℕ) : ℕ → List β → Prop where
  | done {pos} (h : ¬pos < stop) : Spells at_ stop pos []
  | item {pos x next xs} (h : pos < stop) (here : at_ pos x next)
      (rest : Spells at_ stop next xs) : Spells at_ stop pos (x :: xs)

variable {at_ : ℕ → β → ℕ → Prop} {step : σ → ℕ → Except ε (σ × ℕ)}
  {visit : σ → β → Except ε σ} {stop : ℕ}

theorem Spells.unique (hat : ∀ pos x next x' next', at_ pos x next → at_ pos x' next' →
    x = x' ∧ next = next') {pos : ℕ} {xs ys : List β} (h : Spells at_ stop pos xs)
    (h' : Spells at_ stop pos ys) : xs = ys := by
  induction h generalizing ys with
  | done hpos =>
    rcases h' with _ | ⟨hpos', -, -⟩
    · rfl
    · exact absurd hpos' hpos
  | item hpos here rest ih =>
    rcases h' with hpos' | ⟨-, here', rest'⟩
    · exact absurd hpos hpos'
    · obtain ⟨rfl, rfl⟩ := hat _ _ _ _ _ here here'
      rw [ih rest']

/-- The same positions, with the items read another way. -/
theorem Spells.map {γ : Type} {at' : ℕ → γ → ℕ → Prop} (f : β → γ) {pos : ℕ} {xs : List β}
    (h : Spells at_ stop pos xs)
    (hat : ∀ pos next, ∀ x ∈ xs, at_ pos x next → at' pos (f x) next) :
    Spells at' stop pos (xs.map f) := by
  induction h with
  | done hpos => exact .done hpos
  | item hpos here rest ih =>
    refine .item hpos (hat _ _ _ List.mem_cons_self here) (ih (fun pos next x hx => ?_))
    exact hat pos next x (List.mem_cons_of_mem _ hx)

/-- A walk visits the items one after another. -/
theorem Spells.walk (visit : σ → β → Except ε σ)
    (hstep : ∀ s pos x next, pos < stop → at_ pos x next →
      pos < next ∧ step s pos = (visit s x).map (fun s => (s, next)))
    {fuel pos : ℕ} {xs : List β} (h : Spells at_ stop pos xs) (hfuel : stop - pos ≤ fuel)
    (s : σ) : walk step stop fuel s pos = xs.foldlM visit s := by
  induction fuel generalizing pos xs s with
  | zero =>
    rcases h with _ | ⟨hpos, -, -⟩
    · rfl
    · omega
  | succ fuel ih =>
    rcases h with hpos | ⟨hpos, here, rest⟩
    · rw [LsmKv.walk, if_neg hpos]
      rfl
    · obtain ⟨hnext, hturn⟩ := hstep s _ _ _ hpos here
      rw [LsmKv.walk, if_pos hpos, hturn, List.foldlM_cons]
      rcases visit s _ with e | s'
      · rfl
      · exact ih rest (by omega) s'

/-- A walk that gets to the end has read the buffer as items. -/
theorem exists_spells (hstep : ∀ s pos s' next, pos < stop → step s pos = .ok (s', next) →
      pos < next ∧ ∃ x, at_ pos x next)
    {fuel pos : ℕ} {s s' : σ} (h : LsmKv.walk step stop fuel s pos = .ok s')
    (hfuel : stop - pos ≤ fuel) : ∃ xs, Spells at_ stop pos xs := by
  induction fuel generalizing s pos with
  | zero => exact ⟨[], .done (by omega)⟩
  | succ fuel ih =>
    rw [LsmKv.walk] at h
    split at h
    · rename_i hpos
      split at h
      · cases h
      · rename_i s₁ next hturn
        obtain ⟨hnext, x, here⟩ := hstep _ _ _ _ hpos hturn
        obtain ⟨xs, hxs⟩ := ih h (by omega)
        exact ⟨x :: xs, .item hpos here hxs⟩
    · rename_i hpos
      exact ⟨[], .done hpos⟩

/-- A fold whose turns succeed or fail whatever came before succeeds when all of them do. -/
theorem foldlM_eq_ok_iff (good : β → Prop) {xs : List β}
    (hvisit : ∀ s, ∀ x ∈ xs, (∃ s', visit s x = .ok s') ↔ good x) (s : σ) :
    (∃ s', xs.foldlM visit s = .ok s') ↔ ∀ x ∈ xs, good x := by
  induction xs generalizing s with
  | nil => exact ⟨fun _ => by simp, fun _ => ⟨s, rfl⟩⟩
  | cons x xs ih =>
    have hhead := hvisit s x List.mem_cons_self
    have htail := ih (fun s y hy => hvisit s y (List.mem_cons_of_mem _ hy))
    rw [List.foldlM_cons, List.forall_mem_cons]
    constructor
    · rintro ⟨s', hs'⟩
      rcases hx : visit s x with e | s₁
      · rw [hx] at hs'
        cases hs'
      · rw [hx] at hs'
        exact ⟨hhead.mp ⟨s₁, hx⟩, (htail s₁).mp ⟨s', hs'⟩⟩
    · rintro ⟨hx, hxs⟩
      obtain ⟨s₁, hs₁⟩ := hhead.mpr hx
      obtain ⟨s', hs'⟩ := (htail s₁).mpr hxs
      exact ⟨s', by rw [hs₁]; exact hs'⟩

end

end LsmKv
