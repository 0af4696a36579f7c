import LsmKv.Bytes

/-!
# Self-delimiting frames

A frame format in which every encoding announces its own end. Scanning peels frames off the
front until nothing readable is left; a concatenation of encodings is read back exactly,
and a cut encoding is never read as a frame.
-/

namespace LsmKv

universe u

/-- `read` takes one frame off the front, and takes nothing that `encode` did not write. -/
structure FrameCodec (R : Type u) where
  Good : R → Prop
  encode : R → Bytes
  read : Bytes → Option (R × Bytes)
  read_encode : ∀ r rest, Good r → read (encode r ++ rest) = some (r, rest)
  read_sound : ∀ b r rest, read b = some (r, rest) → Good r ∧ b = encode r ++ rest
  encode_ne_nil : ∀ r, encode r ≠ []

namespace FrameCodec

variable {R : Type u} (c : FrameCodec R)

def encodeAll (rs : List R) : Bytes := rs.flatMap c.encode

@[simp] theorem encodeAll_nil : c.encodeAll [] = [] := rfl

@[simp] theorem encodeAll_cons (r : R) (rs : List R) :
    c.encodeAll (r :: rs) = c.encode r ++ c.encodeAll rs := rfl

@[simp] theorem encodeAll_append (rs ts : List R) :
    c.encodeAll (rs ++ ts) = c.encodeAll rs ++ c.encodeAll ts := by simp [encodeAll]

/-- Frames from the front, and the bytes from the first unreadable place on. -/
def scanLoop : ℕ → Bytes → List R × Bytes
  | 0, b => ([], b)
  | n + 1, b => match c.read b with
    | none => ([], b)
    | some (r, rest) => ((r :: (scanLoop n rest).1), (scanLoop n rest).2)

def scan (b : Bytes) : List R × Bytes := c.scanLoop b.length b

@[simp] theorem read_nil : c.read [] = none := by
  rcases h : c.read [] with _ | ⟨r, rest⟩
  · rfl
  · have he := (c.read_sound _ _ _ h).2
    exact absurd (List.append_eq_nil_iff.mp he.symm).1 (c.encode_ne_nil r)

theorem read_length {b rest : Bytes} {r : R} (h : c.read b = some (r, rest)) :
    rest.length < b.length := by
  obtain ⟨-, rfl⟩ := c.read_sound _ _ _ h
  have := List.length_pos_iff.mpr (c.encode_ne_nil r)
  simp only [List.length_append]
  omega

/-- Fuel beyond the length of the input changes nothing. -/
theorem scanLoop_fuel {n m : ℕ} {b : Bytes} (hn : b.length ≤ n) (hm : b.length ≤ m) :
    c.scanLoop n b = c.scanLoop m b := by
  induction n generalizing m b with
  | zero =>
    obtain rfl : b = [] := List.length_eq_zero_iff.mp (by omega)
    cases m <;> simp [scanLoop]
  | succ n ih =>
    cases m with
    | zero =>
      obtain rfl : b = [] := List.length_eq_zero_iff.mp (by omega)
      simp [scanLoop]
    | succ m =>
      simp only [scanLoop]
      rcases hr : c.read b with _ | ⟨r, rest⟩
      · rfl
      · have hlt := c.read_length hr
        simp only [ih (b := rest) (m := m) (by omega) (by omega)]

theorem scan_of_read_none {b : Bytes} (h : c.read b = none) : c.scan b = ([], b) := by
  unfold scan
  cases b with
  | nil => rfl
  | cons a b => simp [scanLoop, h]

theorem scan_of_read_some {b rest : Bytes} {r : R} (h : c.read b = some (r, rest)) :
    c.scan b = (r :: (c.scan rest).1, (c.scan rest).2) := by
  have hlt := c.read_length h
  unfold scan
  obtain ⟨n, hn⟩ : ∃ n, b.length = n + 1 := ⟨b.length - 1, by omega⟩
  simp only [hn, scanLoop, h]
  rw [c.scanLoop_fuel (n := n) (m := rest.length) (by omega) le_rfl]

/-- Scanning goes on behind frames as it would from the start. -/
theorem scan_append {rs : List R} (hg : ∀ r ∈ rs, c.Good r) (b : Bytes) :
    c.scan (c.encodeAll rs ++ b) = (rs ++ (c.scan b).1, (c.scan b).2) := by
  induction rs with
  | nil => rfl
  | cons r rs ih =>
    have hread : c.read (c.encodeAll (r :: rs) ++ b) = some (r, c.encodeAll rs ++ b) := by
      rw [encodeAll_cons, List.append_assoc]
      exact c.read_encode r _ (hg r List.mem_cons_self)
    rw [c.scan_of_read_some hread, ih (fun x hx => hg x (List.mem_cons_of_mem _ hx))]
    rfl

/-- Scanning reads back written frames and stops where the rest is unreadable. -/
theorem scan_encodeAll {rs : List R} (hg : ∀ r ∈ rs, c.Good r) {tail : Bytes}
    (ht : c.read tail = none) : c.scan (c.encodeAll rs ++ tail) = (rs, tail) := by
  rw [c.scan_append hg, c.scan_of_read_none ht, List.append_nil]

theorem scan_encodeAll_nil {rs : List R} (hg : ∀ r ∈ rs, c.Good r) :
    c.scan (c.encodeAll rs) = (rs, []) := by
  simpa using c.scan_encodeAll hg c.read_nil

/-- Scanning splits its input into written frames and an unreadable rest. -/
theorem scan_sound (b : Bytes) :
    b = c.encodeAll (c.scan b).1 ++ (c.scan b).2 ∧ (∀ r ∈ (c.scan b).1, c.Good r) ∧
      c.read (c.scan b).2 = none := by
  induction hn : b.length using Nat.strong_induction_on generalizing b with
  | _ n ih =>
    rcases hr : c.read b with _ | ⟨r, rest⟩
    · rw [c.scan_of_read_none hr]
      exact ⟨rfl, by simp, hr⟩
    · have hlt := c.read_length hr
      obtain ⟨hgood, hb⟩ := c.read_sound _ _ _ hr
      obtain ⟨h₁, h₂, h₃⟩ := ih rest.length (by omega) rest rfl
      rw [c.scan_of_read_some hr]
      refine ⟨?_, ?_, h₃⟩
      · rw [encodeAll_cons, List.append_assoc, ← h₁, hb]
      · intro x hx
        rcases List.mem_cons.mp hx with rfl | hx
        · exact hgood
        · exact h₂ x hx

/-- A frame cut short is not readable. -/
theorem read_cut {r : R} (hg : c.Good r) {p q : Bytes} (h : c.encode r = p ++ q) (hq : q ≠ []) :
    c.read p = none := by
  rcases hr : c.read p with _ | ⟨r', rest⟩
  · rfl
  · obtain ⟨hg', hp⟩ := c.read_sound _ _ _ hr
    have h₁ := c.read_encode r [] hg
    have h₂ := c.read_encode r' (rest ++ q) hg'
    rw [← List.append_assoc, ← hp, ← h, ← List.append_nil (c.encode r), h₁] at h₂
    have hnil : rest ++ q = [] := by simpa using (Prod.mk.inj (Option.some.inj h₂)).2.symm
    exact absurd (List.append_eq_nil_iff.mp hnil).2 hq

/-- Every cut of a concatenation keeps exactly its whole frames. -/
theorem scan_take {rs : List R} (hg : ∀ r ∈ rs, c.Good r) (n : ℕ) :
    ∃ k tail, c.scan ((c.encodeAll rs).take n) = (rs.take k, tail) ∧
      (c.encodeAll rs).take n = c.encodeAll (rs.take k) ++ tail := by
  induction rs generalizing n with
  | nil => exact ⟨0, [], by simpa using c.scan_of_read_none c.read_nil, by simp⟩
  | cons r rs ih =>
    have hr := hg r List.mem_cons_self
    rcases Nat.lt_or_ge n (c.encode r).length with hn | hn
    · have hcut : c.read ((c.encode r).take n) = none := by
        refine c.read_cut hr (List.take_append_drop n _).symm ?_
        simpa [List.drop_eq_nil_iff] using hn
      have htake : (c.encodeAll (r :: rs)).take n = (c.encode r).take n := by
        rw [encodeAll_cons, List.take_append_of_le_length hn.le]
      exact ⟨0, (c.encode r).take n, by rw [htake, c.scan_of_read_none hcut, List.take_zero],
        by rw [htake]; simp⟩
    · obtain ⟨k, tail, h₁, h₂⟩ :=
        ih (fun x hx => hg x (List.mem_cons_of_mem _ hx)) (n - (c.encode r).length)
      have htake : (c.encodeAll (r :: rs)).take n =
          c.encode r ++ (c.encodeAll rs).take (n - (c.encode r).length) := by
        rw [encodeAll_cons, List.take_append, List.take_of_length_le hn]
      refine ⟨k + 1, tail, ?_, ?_⟩
      · rw [htake, c.scan_of_read_some (c.read_encode r _ hr), h₁, List.take_succ_cons]
      · rw [htake, h₂]
        simp

end FrameCodec
end LsmKv
