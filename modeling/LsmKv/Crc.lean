import LsmKv.Bytes
import Mathlib.Logic.Function.Iterate

/-!
# CRC-32 separates one-byte changes

Taking in a byte is eight shifts of the register. A shift can be undone, because the bit it
drops comes back as the top coefficient of the polynomial; so neither two states nor two bytes
are ever confused, and strings that differ in one byte have different checksums.
-/

namespace LsmKv

/-- One shift of the register, as the table is built from. -/
def crcShift (c : UInt32) : UInt32 :=
  if c &&& 1 = 1 then (0xEDB88320 : UInt32) ^^^ (c >>> 1) else c >>> 1

theorem crcTable_eq (i : UInt32) : crcTable i = crcShift^[8] i := rfl

/-! ## Bits of a word -/

def bit (c : UInt32) (i : ℕ) : Bool := c.toNat.testBit i

section
variable {a b c : UInt32}

theorem ext_bits (h : ∀ i, bit a i = bit b i) : a = b :=
  UInt32.toNat_inj.mp (Nat.eq_of_testBit_eq h)

theorem bit_of_ge (c : UInt32) {i : ℕ} (h : 32 ≤ i) : bit c i = false :=
  Nat.testBit_lt_two_pow (c.toNat_lt.trans_le (Nat.pow_le_pow_right (by omega) h))

theorem bit_xor (a b : UInt32) (i : ℕ) : bit (a ^^^ b) i = Bool.xor (bit a i) (bit b i) := by
  rw [bit, UInt32.toNat_xor, Nat.testBit_xor]
  rfl

theorem bit_shiftRight_one (c : UInt32) (i : ℕ) : bit (c >>> 1) i = bit c (1 + i) := by
  rw [bit, UInt32.toNat_shiftRight, Nat.testBit_shiftRight]
  rfl

theorem bit_shiftRight_eight (c : UInt32) (i : ℕ) : bit (c >>> 8) i = bit c (8 + i) := by
  rw [bit, UInt32.toNat_shiftRight, Nat.testBit_shiftRight]
  rfl

theorem bit_low_byte (c : UInt32) (i : ℕ) : bit (c &&& 0xFF) i = (bit c i && decide (i < 8)) := by
  have hmask : (0xFF : UInt32).toNat = 2 ^ 8 - 1 := rfl
  rw [bit, UInt32.toNat_and, Nat.testBit_and, hmask, Nat.testBit_two_pow_sub_one]
  rfl

theorem bit_toUInt32 (b : UInt8) {i : ℕ} (h : 8 ≤ i) : bit b.toUInt32 i = false := by
  have hlt : b.toUInt32.toNat < 2 ^ 8 := b.toNat_lt
  exact Nat.testBit_lt_two_pow (hlt.trans_le (Nat.pow_le_pow_right (by omega) h))

theorem low_bit_iff (c : UInt32) : c &&& 1 = 1 ↔ bit c 0 = true := by
  rw [← UInt32.toNat_inj, UInt32.toNat_and, bit, Nat.testBit_zero, decide_eq_true_eq]
  show c.toNat &&& 1 = 1 ↔ _
  rw [Nat.and_one_is_mod]

/-! ## The shift -/

theorem crcShift_of_even (h : bit c 0 = false) : crcShift c = c >>> 1 := by
  rw [crcShift, if_neg]
  rw [low_bit_iff, h]
  decide

theorem crcShift_of_odd (h : bit c 0 = true) :
    crcShift c = (0xEDB88320 : UInt32) ^^^ (c >>> 1) := by
  rw [crcShift, if_pos]
  rw [low_bit_iff, h]

/-- The top bit after a shift is the one it dropped. -/
theorem top_bit_crcShift (c : UInt32) : bit (crcShift c) 31 = bit c 0 := by
  have htop : bit (c >>> 1) 31 = false := by rw [bit_shiftRight_one, bit_of_ge c (by omega)]
  rcases h : bit c 0 with _ | _
  · rw [crcShift_of_even h, htop]
  · rw [crcShift_of_odd h, bit_xor, htop]
    decide

theorem crcShift_injective : Function.Injective crcShift := by
  intro a b h
  have hlow : bit a 0 = bit b 0 := by rw [← top_bit_crcShift, ← top_bit_crcShift, h]
  have hrest : a >>> 1 = b >>> 1 := by
    rcases hbit : bit b 0 with _ | _
    · rwa [crcShift_of_even (hlow.trans hbit), crcShift_of_even hbit] at h
    · rw [crcShift_of_odd (hlow.trans hbit), crcShift_of_odd hbit] at h
      exact (UInt32.xor_right_inj _).mp h
  refine ext_bits (fun i => ?_)
  rcases i with _ | i
  · exact hlow
  · have hi := congrArg (fun c => bit c i) hrest
    simp only [bit_shiftRight_one] at hi
    rwa [Nat.add_comm i 1]

theorem shiftRight_xor (a b : UInt32) : (a ^^^ b) >>> 1 = (a >>> 1) ^^^ (b >>> 1) :=
  ext_bits (fun i => by simp only [bit_shiftRight_one, bit_xor])

theorem crcShift_xor (a b : UInt32) : crcShift (a ^^^ b) = crcShift a ^^^ crcShift b := by
  have hbit := bit_xor a b 0
  rcases ha : bit a 0 with _ | _ <;> rcases hb : bit b 0 with _ | _ <;> rw [ha, hb] at hbit
  · rw [crcShift_of_even hbit, crcShift_of_even ha, crcShift_of_even hb, shiftRight_xor]
  · rw [crcShift_of_odd hbit, crcShift_of_even ha, crcShift_of_odd hb, shiftRight_xor,
      ← UInt32.xor_assoc, UInt32.xor_comm 0xEDB88320, UInt32.xor_assoc]
  · rw [crcShift_of_odd hbit, crcShift_of_odd ha, crcShift_of_even hb, shiftRight_xor,
      UInt32.xor_assoc]
  · rw [crcShift_of_even hbit, crcShift_of_odd ha, crcShift_of_odd hb, shiftRight_xor]
    refine ext_bits (fun i => ?_)
    simp only [bit_xor]
    rcases bit 0xEDB88320 i with _ | _ <;> rcases bit (a >>> 1) i with _ | _ <;>
      rcases bit (b >>> 1) i with _ | _ <;> rfl

theorem iterate_crcShift_xor (n : ℕ) (a b : UInt32) :
    crcShift^[n] (a ^^^ b) = crcShift^[n] a ^^^ crcShift^[n] b := by
  induction n generalizing a b with
  | zero => rfl
  | succ n ih => rw [Function.iterate_succ_apply, crcShift_xor, ih]; rfl

/-- While the dropped bits are clear, shifting only moves the others down. -/
theorem bit_iterate_crcShift {n : ℕ} (hclear : ∀ i < n, bit c i = false) (i : ℕ) :
    bit (crcShift^[n] c) i = bit c (n + i) := by
  induction n generalizing i with
  | zero => rw [Nat.zero_add]; rfl
  | succ n ih =>
    have hprev := ih (fun i hi => hclear i (by omega))
    have hlow : bit (crcShift^[n] c) 0 = false := by
      rw [hprev 0]
      exact hclear n (by omega)
    rw [Function.iterate_succ_apply', crcShift_of_even hlow, bit_shiftRight_one, hprev,
      ← Nat.add_assoc]

/-- Taking in a byte from the table is shifting the register eight times. -/
theorem crcStep_eq (crc : UInt32) (b : UInt8) :
    crcStep crc b = crcShift^[8] (crc ^^^ b.toUInt32) := by
  have hbits : ∀ i, bit ((crc ^^^ b.toUInt32) ^^^ ((crc ^^^ b.toUInt32) &&& 0xFF)) i =
      (bit crc i && !decide (i < 8)) := by
    intro i
    rw [bit_xor, bit_low_byte]
    by_cases hi : i < 8
    · simp [hi]
    · rw [bit_xor, bit_toUInt32 b (by omega)]
      simp [hi]
  have hsplit : crc ^^^ b.toUInt32 = ((crc ^^^ b.toUInt32) &&& 0xFF) ^^^
      ((crc ^^^ b.toUInt32) ^^^ ((crc ^^^ b.toUInt32) &&& 0xFF)) := by
    rw [UInt32.xor_comm (crc ^^^ b.toUInt32), ← UInt32.xor_assoc, UInt32.xor_self,
      UInt32.zero_xor]
  have hhigh : crcShift^[8] ((crc ^^^ b.toUInt32) ^^^ ((crc ^^^ b.toUInt32) &&& 0xFF)) =
      crc >>> 8 := by
    refine ext_bits (fun i => ?_)
    rw [bit_iterate_crcShift (fun i hi => by simp [hbits, hi]), hbits, bit_shiftRight_eight]
    simp
  rw [crcStep, crcTable_eq, hsplit, iterate_crcShift_xor, hhigh, ← hsplit]

/-! ## One byte -/

theorem crcStep_injective (b : UInt8) : Function.Injective (fun crc => crcStep crc b) := by
  intro a c h
  simp only [crcStep_eq] at h
  exact (UInt32.xor_left_inj _).mp (crcShift_injective.iterate 8 h)

theorem crcStep_byte_injective (crc : UInt32) : Function.Injective (crcStep crc) := by
  intro b c h
  simp only [crcStep_eq] at h
  have hword : b.toUInt32 = c.toUInt32 :=
    (UInt32.xor_right_inj _).mp (crcShift_injective.iterate 8 h)
  exact UInt8.toNat_inj.mp (congrArg UInt32.toNat hword)

theorem foldl_crcStep_injective (data : Bytes) :
    Function.Injective (fun crc => data.foldl crcStep crc) := by
  induction data with
  | nil => exact fun _ _ h => h
  | cons b data ih => exact fun a c h => crcStep_injective b (ih h)

/-- Changing one byte changes the checksum. -/
theorem crc32_ne_of_ne {b b' : UInt8} (h : b ≠ b') (pre post : Bytes) :
    crc32 (pre ++ b :: post) ≠ crc32 (pre ++ b' :: post) := by
  intro he
  have hword := (UInt32.xor_left_inj _).mp (UInt32.toNat_inj.mp he)
  rw [List.foldl_append, List.foldl_append, List.foldl_cons, List.foldl_cons] at hword
  exact h (crcStep_byte_injective _ (foldl_crcStep_injective post hword))

end

end LsmKv
