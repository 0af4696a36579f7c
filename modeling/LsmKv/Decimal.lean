import LsmKv.Bytes
import Mathlib.Data.List.Induction
import Mathlib.Data.Nat.Log

/-!
# Decimal numerals

What `std::to_string` and a zero-padded `printf` write, and what `std::stoull` and scanners of
digits read back.
-/

namespace LsmKv

def digitByte (d : ℕ) : UInt8 := UInt8.ofNat (48 + d)

def isDigit (c : UInt8) : Bool := 48 ≤ c && c ≤ 57

def digitValue (c : UInt8) : ℕ := c.toNat - 48

/-- The last `w` digits of a number. -/
def digitsOf : ℕ → ℕ → Bytes
  | 0, _ => []
  | w + 1, n => digitsOf w (n / 10) ++ [digitByte (n % 10)]

/-- At least `w` digits, with leading zeros if need be. -/
def padded (w n : ℕ) : Bytes := digitsOf (max w (Nat.log 10 n + 1)) n

/-- `std::to_string` -/
def decimal (n : ℕ) : Bytes := padded 1 n

/-- The number a run of digits stands for. -/
def numeral (s : Bytes) : ℕ := s.foldl (fun v c => 10 * v + digitValue c) 0

/-! ## Digits -/

theorem toNat_digitByte {d : ℕ} (h : d < 10) : (digitByte d).toNat = 48 + d := by
  have hsize : UInt8.size = 256 := rfl
  exact UInt8.toNat_ofNat_of_lt (by omega)

@[simp] theorem digitValue_digitByte {d : ℕ} (h : d < 10) : digitValue (digitByte d) = d := by
  rw [digitValue, toNat_digitByte h]
  omega

theorem isDigit_iff {c : UInt8} : isDigit c = true ↔ 48 ≤ c.toNat ∧ c.toNat ≤ 57 := by
  rw [isDigit, Bool.and_eq_true, decide_eq_true_iff, decide_eq_true_iff, UInt8.le_iff_toNat_le,
    UInt8.le_iff_toNat_le]
  rfl

theorem isDigit_digitByte {d : ℕ} (h : d < 10) : isDigit (digitByte d) = true := by
  rw [isDigit_iff, toNat_digitByte h]
  omega

theorem digitValue_lt {c : UInt8} (h : isDigit c = true) : digitValue c < 10 := by
  have := isDigit_iff.mp h
  rw [digitValue]
  omega

theorem digitByte_digitValue {c : UInt8} (h : isDigit c = true) : digitByte (digitValue c) = c := by
  have hbounds := isDigit_iff.mp h
  refine UInt8.toNat_inj.mp ((toNat_digitByte (digitValue_lt h)).trans ?_)
  rw [digitValue]
  omega

theorem length_digitsOf (w n : ℕ) : (digitsOf w n).length = w := by
  induction w generalizing n with
  | zero => rfl
  | succ w ih => rw [digitsOf, List.length_append, ih, List.length_singleton]

theorem isDigit_of_mem_digitsOf {w n : ℕ} {c : UInt8} (h : c ∈ digitsOf w n) :
    isDigit c = true := by
  induction w generalizing n with
  | zero => cases h
  | succ w ih =>
    rcases List.mem_append.mp h with h | h
    · exact ih h
    · rw [List.mem_singleton.mp h]
      exact isDigit_digitByte (Nat.mod_lt n (by omega))

/-! ## Reading back -/

theorem numeral_snoc (s : Bytes) (c : UInt8) :
    numeral (s ++ [c]) = 10 * numeral s + digitValue c := by
  rw [numeral, List.foldl_append]
  rfl

theorem numeral_digitsOf (w n : ℕ) : numeral (digitsOf w n) = n % 10 ^ w := by
  induction w generalizing n with
  | zero => rw [pow_zero, Nat.mod_one]; rfl
  | succ w ih =>
    rw [digitsOf, numeral_snoc, ih, digitValue_digitByte (Nat.mod_lt n (by omega)), pow_succ',
      Nat.mod_mul]
    omega

/-- A run of digits is told by its length and its number. -/
theorem digitsOf_numeral {s : Bytes} (h : ∀ c ∈ s, isDigit c = true) :
    digitsOf s.length (numeral s) = s := by
  induction s using List.reverseRecOn with
  | nil => rfl
  | append_singleton s c ih =>
    have hc := h c (by simp)
    have hlt := digitValue_lt hc
    rw [List.length_append, List.length_singleton, digitsOf, numeral_snoc]
    have hdiv : (10 * numeral s + digitValue c) / 10 = numeral s := by omega
    have hmod : (10 * numeral s + digitValue c) % 10 = digitValue c := by omega
    rw [hdiv, hmod, ih (fun a ha => h a (List.mem_append_left _ ha)), digitByte_digitValue hc]

theorem lt_pow_width (w n : ℕ) : n < 10 ^ max w (Nat.log 10 n + 1) :=
  (Nat.lt_pow_succ_log_self (by omega) n).trans_le
    (Nat.pow_le_pow_right (by omega) (le_max_right _ _))

@[simp] theorem numeral_padded (w n : ℕ) : numeral (padded w n) = n := by
  rw [padded, numeral_digitsOf, Nat.mod_eq_of_lt (lt_pow_width w n)]

@[simp] theorem numeral_decimal (n : ℕ) : numeral (decimal n) = n := numeral_padded 1 n

theorem isDigit_of_mem_padded {w n : ℕ} {c : UInt8} (h : c ∈ padded w n) : isDigit c = true :=
  isDigit_of_mem_digitsOf h

theorem padded_inj {w m n : ℕ} (h : padded w m = padded w n) : m = n := by
  rw [← numeral_padded w m, h, numeral_padded]

theorem length_padded (w n : ℕ) : (padded w n).length = max w (Nat.log 10 n + 1) :=
  length_digitsOf _ _

theorem padded_ne_nil {w n : ℕ} : padded w n ≠ [] := by
  rw [← List.length_pos_iff_ne_nil, length_padded]
  omega

/-- How long a numeral gets. -/
theorem length_padded_le {w n k : ℕ} (hw : w ≤ k) (hk : k ≠ 0) :
    (padded w n).length ≤ k ↔ n < 10 ^ k := by
  have hlog : Nat.log 10 n < k ↔ n < 10 ^ k := by
    rcases Nat.eq_zero_or_pos n with rfl | hn
    · simp [Nat.pos_of_ne_zero hk]
    · exact Nat.log_lt_iff_lt_pow (by omega) hn.ne'
  rw [length_padded, ← hlog]
  omega

/-- A number with no more than `w` digits is written with exactly that many. -/
theorem padded_of_lt {w n : ℕ} (hw : w ≠ 0) (h : n < 10 ^ w) : padded w n = digitsOf w n := by
  have hlength := (length_padded_le le_rfl hw).mpr h
  rw [length_padded] at hlength
  rw [padded, le_antisymm hlength (le_max_left _ _)]

/-- A run of digits is below the power of ten it has digits for. -/
theorem numeral_lt {s : Bytes} (h : ∀ c ∈ s, isDigit c = true) : numeral s < 10 ^ s.length := by
  rw [← digitsOf_numeral h, numeral_digitsOf, length_digitsOf]
  exact Nat.mod_lt _ (Nat.pow_pos (by omega))

/-! ## `std::stoull` -/

/-- What the standard library's conversions throw. -/
inductive ConversionError where
  | invalidArgument | outOfRange
  deriving DecidableEq, Repr

def isSpace (c : UInt8) : Bool := c == 32 || (9 ≤ c && c ≤ 13)

def dropSign : Bytes → Bytes
  | 43 :: t => t
  | 45 :: t => t
  | t => t

/-- `std::stoull` in base ten: what follows the digits is not looked at, and a minus sign wraps
around. -/
def stoull (s : Bytes) : Except ConversionError ℕ :=
  let t := s.dropWhile isSpace
  let digits := (dropSign t).takeWhile isDigit
  if digits = [] then .error .invalidArgument
  else if 2 ^ 64 ≤ numeral digits then .error .outOfRange
  else if t.head? = some 45 then .ok ((2 ^ 64 - numeral digits) % 2 ^ 64)
  else .ok (numeral digits)

theorem dropWhile_isSpace {c : UInt8} (h : isDigit c = true) (s : Bytes) :
    (c :: s).dropWhile isSpace = c :: s := by
  have hc := isDigit_iff.mp h
  have h32 : c ≠ 32 := by rintro rfl; simp at hc
  have h13 : ¬c ≤ 13 := by
    rw [UInt8.le_iff_toNat_le]
    simp
    omega
  rw [List.dropWhile_cons_of_neg (by simp [isSpace, h32, h13])]

/-- Digits and what is no digit are told apart. -/
theorem stoull_digits {s : Bytes} (hs : s ≠ []) (hdigits : ∀ c ∈ s, isDigit c = true)
    (rest : Bytes) (hrest : ∀ c ∈ rest.head?, isDigit c = false) :
    stoull (s ++ rest) = if 2 ^ 64 ≤ numeral s then .error .outOfRange else .ok (numeral s) := by
  obtain ⟨c, s, rfl⟩ := List.exists_cons_of_ne_nil hs
  have hc := isDigit_iff.mp (hdigits c List.mem_cons_self)
  have hplus : c ≠ 43 := by rintro rfl; simp at hc
  have hminus : c ≠ 45 := by rintro rfl; simp at hc
  have hdrop : (c :: s ++ rest).dropWhile isSpace = c :: s ++ rest :=
    dropWhile_isSpace (hdigits c List.mem_cons_self) _
  have htake : (c :: s ++ rest).takeWhile isDigit = c :: s := by
    rw [List.takeWhile_append_of_pos hdigits]
    rcases rest with _ | ⟨b, rest⟩
    · simp
    · have hb : ¬isDigit b = true := by simp [hrest b rfl]
      rw [List.takeWhile_cons_of_neg hb, List.append_nil]
  have hsign : dropSign (c :: s ++ rest) = c :: s ++ rest := by
    rw [List.cons_append, dropSign.eq_3 _ (by simp [hplus]) (by simp [hminus])]
  rw [stoull, hdrop]
  simp only [hsign, htake]
  simp [hminus]

end LsmKv
