import LsmKv.Crc

/-!
# CRC-32 detects bursts

Taken in bit by bit, up to 32 bits of a string meet the register as one word, and shifting a
word loses nothing. So two strings that differ only inside a window of 32 bits leave different
registers, wherever the window lies, across the body and the checksum stored behind it too.
-/

namespace LsmKv

/-- The bits of a byte, least significant first, as the register takes them in. -/
def byteBits (b : UInt8) : List Bool := (List.range 8).map b.toNat.testBit

def bitsOf (data : Bytes) : List Bool := data.flatMap byteBits

/-- One bit taken into the register. -/
def bitStep (crc : UInt32) (b : Bool) : UInt32 := crcShift (crc ^^^ if b then 1 else 0)

/-- The word that holds these bits, the first of them lowest. -/
def wordOf : List Bool → UInt32
  | [] => 0
  | b :: bs => (if b then (1 : UInt32) else 0) ^^^ (wordOf bs <<< 1)

@[simp] theorem length_byteBits (b : UInt8) : (byteBits b).length = 8 := by
  rw [byteBits, List.length_map, List.length_range]

@[simp] theorem bitsOf_append (data data' : Bytes) :
    bitsOf (data ++ data') = bitsOf data ++ bitsOf data' := List.flatMap_append

theorem length_bitsOf (data : Bytes) : (bitsOf data).length = 8 * data.length := by
  induction data with
  | nil => rfl
  | cons b data ih =>
    rw [bitsOf, List.flatMap_cons, List.length_append, length_byteBits, ← bitsOf, ih,
      List.length_cons]
    omega

/-! ## Words of bits -/

section
variable {c : UInt32}

theorem bit_zero (i : ℕ) : bit 0 i = false := Nat.zero_testBit i

theorem bit_one_or_zero (b : Bool) (i : ℕ) :
    bit (if b then 1 else 0) i = (b && decide (i = 0)) := by
  rcases b with _ | _
  · exact bit_zero i
  · rcases i with _ | i
    · rfl
    · show (1 : ℕ).testBit (i + 1) = _
      rw [Nat.testBit_add_one]
      simp

theorem bit_shiftLeft_one (c : UInt32) {i : ℕ} (h : i < 32) :
    bit (c <<< 1) i = (decide (1 ≤ i) && bit c (i - 1)) := by
  rw [bit, UInt32.toNat_shiftLeft]
  show Nat.testBit (c.toNat <<< 1 % 2 ^ 32) i = _
  rw [Nat.testBit_mod_two_pow, Nat.testBit_shiftLeft]
  simp [h, bit]

theorem bit_wordOf (bs : List Bool) {i : ℕ} (h : i < 32) :
    bit (wordOf bs) i = bs[i]?.getD false := by
  induction bs generalizing i with
  | nil => exact bit_zero i
  | cons b bs ih =>
    rw [wordOf, bit_xor, bit_one_or_zero, bit_shiftLeft_one _ h]
    rcases i with _ | i
    · simp
    · have hi := @ih i (by omega)
      simp [hi]

theorem bit_wordOf_of_length {bs : List Bool} {i : ℕ} (h : bs.length ≤ i) :
    bit (wordOf bs) i = false := by
  rcases Nat.lt_or_ge i 32 with hi | hi
  · rw [bit_wordOf bs hi, List.getElem?_eq_none h, Option.getD_none]
  · exact bit_of_ge _ hi

/-- Bits that fit into a word can be read back from it. -/
theorem wordOf_injective {bs bs' : List Bool} (hlen : bs.length = bs'.length)
    (h32 : bs.length ≤ 32) (h : wordOf bs = wordOf bs') : bs = bs' := by
  refine List.ext_getElem hlen (fun i hi hi' => ?_)
  have hbit := congrArg (fun c => bit c i) h
  simp only [bit_wordOf _ (hi.trans_le h32)] at hbit
  rwa [List.getElem?_eq_getElem hi, List.getElem?_eq_getElem hi'] at hbit

/-- A shift brings a word back that was moved up one place. -/
theorem crcShift_shiftLeft (h : bit c 31 = false) : crcShift (c <<< 1) = c := by
  have hlow : bit (c <<< 1) 0 = false := by
    rw [bit_shiftLeft_one c (by omega)]
    rfl
  rw [crcShift_of_even hlow]
  refine ext_bits (fun i => ?_)
  rw [bit_shiftRight_one]
  rcases Nat.lt_or_ge (1 + i) 32 with hi | hi
  · rw [bit_shiftLeft_one c hi]
    simp
  · rw [bit_of_ge _ hi]
    rcases Nat.eq_or_lt_of_le (Nat.le_of_lt_succ (show 31 < i + 1 by omega)) with rfl | hi
    · exact h.symm
    · exact (bit_of_ge c hi).symm

/-- A word's worth of bits is taken in as one word. -/
theorem foldl_bitStep {bs : List Bool} (h : bs.length ≤ 32) (crc : UInt32) :
    bs.foldl bitStep crc = crcShift^[bs.length] (crc ^^^ wordOf bs) := by
  induction bs generalizing crc with
  | nil => exact UInt32.xor_zero.symm
  | cons b bs ih =>
    rw [List.length_cons] at h
    have htop : bit (wordOf bs) 31 = false := bit_wordOf_of_length (by omega)
    calc (b :: bs).foldl bitStep crc
        = crcShift^[bs.length] (bitStep crc b ^^^ wordOf bs) := ih (by omega) _
      _ = crcShift^[bs.length]
            (bitStep crc b ^^^ crcShift (wordOf bs <<< 1)) := by rw [crcShift_shiftLeft htop]
      _ = crcShift^[bs.length + 1] (crc ^^^ wordOf (b :: bs)) := by
        rw [bitStep, ← crcShift_xor, ← Function.iterate_succ_apply, UInt32.xor_assoc, wordOf]

theorem wordOf_byteBits (b : UInt8) : wordOf (byteBits b) = b.toUInt32 := by
  refine ext_bits (fun i => ?_)
  rcases Nat.lt_or_ge i 8 with hi | hi
  · rw [bit_wordOf _ (by omega), byteBits, List.getElem?_map, List.getElem?_range hi]
    rfl
  · rw [bit_wordOf_of_length (by rwa [length_byteBits]), bit_toUInt32 b hi]

theorem foldl_byteBits (crc : UInt32) (b : UInt8) :
    (byteBits b).foldl bitStep crc = crcStep crc b := by
  rw [foldl_bitStep (by rw [length_byteBits]; omega), length_byteBits, wordOf_byteBits, crcStep_eq]

theorem foldl_bitsOf (data : Bytes) (crc : UInt32) :
    (bitsOf data).foldl bitStep crc = data.foldl crcStep crc := by
  induction data generalizing crc with
  | nil => rfl
  | cons b data ih =>
    rw [bitsOf, List.flatMap_cons, List.foldl_append, foldl_byteBits, ← bitsOf, ih, List.foldl_cons]

end

/-! ## Bursts -/

/-- The two strings differ, and only inside a window of 32 bits. -/
def Burst (data data' : Bytes) : Prop :=
  ∃ pre mid mid' post : List Bool, bitsOf data = pre ++ (mid ++ post) ∧
    bitsOf data' = pre ++ (mid' ++ post) ∧ mid.length = mid'.length ∧ mid.length ≤ 32 ∧ mid ≠ mid'

section
variable {data data' : Bytes}

theorem Burst.length (h : Burst data data') : data'.length = data.length := by
  obtain ⟨pre, mid, mid', post, hdata, hdata', hlen, -, -⟩ := h
  have hbits : (bitsOf data').length = (bitsOf data).length := by
    simp only [hdata, hdata', List.length_append, hlen]
  rw [length_bitsOf, length_bitsOf] at hbits
  omega

theorem foldl_bitStep_injective (bs : List Bool) :
    Function.Injective (fun crc => bs.foldl bitStep crc) := by
  induction bs with
  | nil => exact fun _ _ h => h
  | cons b bs ih => exact fun _ _ h => (UInt32.xor_left_inj _).mp (crcShift_injective (ih h))

/-- A burst is in the register whatever was taken in before, and stays in it. -/
theorem Burst.foldl_ne (h : Burst data data') (crc : UInt32) :
    data.foldl crcStep crc ≠ data'.foldl crcStep crc := by
  obtain ⟨pre, mid, mid', post, hdata, hdata', hlen, h32, hne⟩ := h
  intro he
  rw [← foldl_bitsOf, ← foldl_bitsOf, hdata, hdata', List.foldl_append, List.foldl_append,
    List.foldl_append, List.foldl_append] at he
  have hmid : mid.foldl bitStep (pre.foldl bitStep crc) = mid'.foldl bitStep _ :=
    foldl_bitStep_injective post he
  rw [foldl_bitStep h32, foldl_bitStep (hlen.symm.trans_le h32), hlen] at hmid
  exact hne (wordOf_injective hlen h32
    ((UInt32.xor_right_inj _).mp (crcShift_injective.iterate _ hmid)))

end

/-! ## A body and its checksum -/

/-- What the register holds behind a body followed by its own checksum. -/
def residue : UInt32 := crcShift^[32] 0xFFFFFFFF

theorem testBit_leNat (data : Bytes) (i : ℕ) :
    (leNat data).testBit i = (bitsOf data)[i]?.getD false := by
  induction data generalizing i with
  | nil => exact Nat.zero_testBit i
  | cons b data ih =>
    have hb : b.toNat < 2 ^ 8 := b.toNat_lt
    have hsum : leNat (b :: data) = 2 ^ 8 * leNat data + b.toNat := by
      rw [leNat, Nat.add_comm]
      rfl
    rw [hsum, Nat.testBit_two_pow_mul_add _ hb, bitsOf, List.flatMap_cons, ← bitsOf]
    split
    · rename_i hi
      rw [List.getElem?_append_left (by rwa [length_byteBits]), byteBits, List.getElem?_map,
        List.getElem?_range hi]
      rfl
    · rename_i hi
      rw [List.getElem?_append_right (by rw [length_byteBits]; omega), length_byteBits, ih]

theorem toNat_wordOf {sum : Bytes} (h : sum.length = 4) :
    (wordOf (bitsOf sum)).toNat = leNat sum := by
  refine Nat.eq_of_testBit_eq (fun i => ?_)
  rcases Nat.lt_or_ge i 32 with hi | hi
  · rw [testBit_leNat]
    exact bit_wordOf _ hi
  · rw [testBit_leNat, List.getElem?_eq_none (by rw [length_bitsOf]; omega), Option.getD_none]
    exact bit_of_ge _ hi

theorem xor_eq_swap (a b c : UInt32) : a ^^^ b = c ↔ a ^^^ c = b := by
  constructor
  · rintro rfl
    rw [← UInt32.xor_assoc, UInt32.xor_self, UInt32.zero_xor]
  · rintro rfl
    rw [← UInt32.xor_assoc, UInt32.xor_self, UInt32.zero_xor]

/-- The checksum behind a body matches exactly when the two together leave the residue. -/
theorem crc32_eq_iff (body : Bytes) {sum : Bytes} (h : sum.length = 4) :
    crc32 body = leNat sum ↔ (body ++ sum).foldl crcStep 0xFFFFFFFF = residue := by
  have hbits : (bitsOf sum).length = 32 := by
    rw [length_bitsOf]
    omega
  rw [List.foldl_append, ← foldl_bitsOf sum, foldl_bitStep (by omega), hbits, residue,
    (crcShift_injective.iterate 32).eq_iff, crc32, ← toNat_wordOf h, UInt32.toNat_inj]
  exact xor_eq_swap _ _ _

theorem bitsOf_injective {data data' : Bytes} (hlen : data.length = data'.length)
    (h : bitsOf data = bitsOf data') : data = data' := by
  have hnum : leNat data = leNat data' := by
    refine Nat.eq_of_testBit_eq (fun i => ?_)
    rw [testBit_leNat, testBit_leNat, h]
  rw [← leBytes_leNat data, hnum, hlen, leBytes_leNat]

/-- Up to four neighbouring bytes changed. -/
theorem burst_of_bytes (pre post : Bytes) {mid mid' : Bytes} (hlen : mid.length = mid'.length)
    (h4 : mid.length ≤ 4) (hne : mid ≠ mid') :
    Burst (pre ++ (mid ++ post)) (pre ++ (mid' ++ post)) := by
  refine ⟨bitsOf pre, bitsOf mid, bitsOf mid', bitsOf post, ?_, ?_, ?_, ?_,
    fun he => hne (bitsOf_injective hlen he)⟩
  · simp only [bitsOf_append]
  · simp only [bitsOf_append]
  · rw [length_bitsOf, length_bitsOf, hlen]
  · rw [length_bitsOf]
    omega

/-- A burst across a body and its checksum leaves a checksum that does not match. -/
theorem crc32_ne_of_burst {body sum body' sum' : Bytes} (hsum : sum.length = 4)
    (hsum' : sum'.length = 4) (hmatch : crc32 body = leNat sum)
    (hburst : Burst (body ++ sum) (body' ++ sum')) : crc32 body' ≠ leNat sum' := by
  intro he
  refine hburst.foldl_ne 0xFFFFFFFF ?_
  rw [(crc32_eq_iff body hsum).mp hmatch, (crc32_eq_iff body' hsum').mp he]

end LsmKv
