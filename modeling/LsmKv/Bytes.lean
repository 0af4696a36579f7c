import Mathlib.Order.Defs.LinearOrder
import Mathlib.Data.List.Lex
import Mathlib.Tactic.Common
import Mathlib.Tactic.Ring

/-!
# Byte strings, little-endian fields and slices

Fixed-width little-endian integers as both file formats store them, and the relation
`HasAt` saying which bytes stand at an offset. Byte strings are ordered lexicographically
by unsigned bytes, as `std::string` compares them.
-/

namespace LsmKv

instance instLinearOrderUInt8 : LinearOrder UInt8 where
  le_refl a := UInt8.le_refl a
  le_trans _ _ _ := UInt8.le_trans
  le_antisymm _ _ := UInt8.le_antisymm
  le_total a b := UInt8.le_total a b
  lt_iff_le_not_ge a b := by
    simp only [UInt8.lt_iff_toNat_lt, UInt8.le_iff_toNat_le]
    omega
  toDecidableLE := inferInstance
  toDecidableLT := inferInstance
  toDecidableEq := inferInstance

abbrev Bytes := List UInt8

/-- A `double` by its 64 bits, which are told apart and not computed with. -/
structure Double where
  bits : BitVec 64
  deriving DecidableEq, Repr

namespace Double

/-- Neither an infinity nor a NaN: their exponent is all ones. -/
def isFinite (x : Double) : Bool := x.bits.extractLsb 62 52 != BitVec.allOnes 11

def ten : Double := ⟨0x4024000000000000⟩

def infinity : Double := ⟨0x7FF0000000000000⟩

end Double

/-- The low `n` bytes of `v`, least significant first. -/
def leBytes : ℕ → ℕ → Bytes
  | 0, _ => []
  | n + 1, v => UInt8.ofNat v :: leBytes n (v / 256)

/-- The number a byte string spells, least significant byte first. -/
def leNat : Bytes → ℕ
  | [] => 0
  | b :: bs => b.toNat + 256 * leNat bs

@[simp] theorem length_leBytes (n v : ℕ) : (leBytes n v).length = n := by
  induction n generalizing v with
  | zero => rfl
  | succ n ih => simp [leBytes, ih]

theorem leNat_leBytes (n v : ℕ) : leNat (leBytes n v) = v % 256 ^ n := by
  induction n generalizing v with
  | zero => simp [leBytes, leNat, Nat.mod_one]
  | succ n ih =>
    have hb : (UInt8.ofNat v).toNat = v % 256 := by simp
    rw [leBytes, leNat, ih, hb, pow_succ', Nat.mod_mul]

theorem leNat_leBytes_of_lt {n v : ℕ} (h : v < 256 ^ n) : leNat (leBytes n v) = v := by
  rw [leNat_leBytes, Nat.mod_eq_of_lt h]

theorem leNat_lt (bs : Bytes) : leNat bs < 256 ^ bs.length := by
  induction bs with
  | nil => simp [leNat]
  | cons b bs ih =>
    have hb := b.toNat_lt
    simp only [leNat, List.length_cons, pow_succ']
    omega

theorem leBytes_leNat (bs : Bytes) : leBytes bs.length (leNat bs) = bs := by
  induction bs with
  | nil => rfl
  | cons b bs ih =>
    have hb := b.toNat_lt
    have hd : (b.toNat + 256 * leNat bs) / 256 = leNat bs := by omega
    simp only [List.length_cons, leBytes, leNat, hd, ih]
    congr 1
    apply UInt8.toNat_inj.mp
    simp only [UInt8.toNat_ofNat']
    omega

theorem leBytes_leNat_of_length {n : ℕ} {bs : Bytes} (h : bs.length = n) :
    leBytes n (leNat bs) = bs := by
  subst h
  exact leBytes_leNat bs

/-- `n` bytes from `off` on, when the string reaches that far. -/
def readAt (b : Bytes) (off n : ℕ) : Option Bytes :=
  if off + n ≤ b.length then some ((b.drop off).take n) else none

/-- The string `s` stands in `b` at offset `off`. -/
def HasAt (b : Bytes) (off : ℕ) (s : Bytes) : Prop :=
  ∃ pre post, b = pre ++ (s ++ post) ∧ pre.length = off

theorem HasAt.intro (pre s post : Bytes) : HasAt (pre ++ (s ++ post)) pre.length s :=
  ⟨pre, post, rfl, rfl⟩

theorem HasAt.le {b s : Bytes} {off : ℕ} (h : HasAt b off s) : off + s.length ≤ b.length := by
  obtain ⟨pre, post, rfl, rfl⟩ := h
  simp only [List.length_append]
  omega

theorem HasAt.readAt {b s : Bytes} {off n : ℕ} (h : HasAt b off s) (hn : n = s.length) :
    readAt b off n = some s := by
  subst hn
  have hle := h.le
  obtain ⟨pre, post, rfl, rfl⟩ := h
  rw [LsmKv.readAt, if_pos hle]
  simp

theorem hasAt_append {b s t : Bytes} {off : ℕ} :
    HasAt b off (s ++ t) ↔ HasAt b off s ∧ HasAt b (off + s.length) t := by
  constructor
  · rintro ⟨pre, post, rfl, rfl⟩
    exact ⟨⟨pre, t ++ post, by simp, rfl⟩, ⟨pre ++ s, post, by simp, by simp⟩⟩
  · rintro ⟨⟨pre, post, rfl, rfl⟩, pre', post', he, hl⟩
    refine ⟨pre, post', ?_, rfl⟩
    have hp : pre' = pre ++ s := by
      have := congrArg (List.take (pre.length + s.length)) he
      rw [← hl] at this
      simpa [hl, List.take_append, List.take_of_length_le] using this.symm
    subst hp
    simpa using he

theorem HasAt.left {b s t : Bytes} {off : ℕ} (h : HasAt b off (s ++ t)) : HasAt b off s :=
  (hasAt_append.mp h).1

theorem HasAt.right {b s t : Bytes} {off : ℕ} (h : HasAt b off (s ++ t)) :
    HasAt b (off + s.length) t := (hasAt_append.mp h).2

theorem HasAt.append_left {b s : Bytes} {off : ℕ} (h : HasAt b off s) (pre : Bytes) :
    HasAt (pre ++ b) (pre.length + off) s := by
  obtain ⟨pre', post, rfl, rfl⟩ := h
  exact ⟨pre ++ pre', post, by simp, by simp⟩

theorem HasAt.append_right {b s : Bytes} {off : ℕ} (h : HasAt b off s) (post : Bytes) :
    HasAt (b ++ post) off s := by
  obtain ⟨pre, post', rfl, rfl⟩ := h
  exact ⟨pre, post' ++ post, by simp, rfl⟩

theorem HasAt.trans {b s t : Bytes} {off off' : ℕ} (h : HasAt b off s) (h' : HasAt s off' t) :
    HasAt b (off + off') t := by
  obtain ⟨pre, post, rfl, rfl⟩ := h
  obtain ⟨pre', post', rfl, rfl⟩ := h'
  exact ⟨pre ++ pre', post' ++ post, by simp, by simp⟩

/-- In a string spelt item by item, each item stands behind those before it. -/
theorem hasAt_flatMap {α : Type*} (f : α → Bytes) (pre : List α) (x : α) (post : List α) :
    HasAt ((pre ++ x :: post).flatMap f) (pre.map (fun a => (f a).length)).sum (f x) := by
  refine ⟨pre.flatMap f, post.flatMap f, ?_, List.length_flatMap⟩
  rw [List.flatMap_append, List.flatMap_cons]

/-- The little-endian `n`-byte field at `off`. -/
def readLe (b : Bytes) (off n : ℕ) : Option ℕ := (readAt b off n).map leNat

theorem HasAt.readLe {b : Bytes} {off n v : ℕ} (h : HasAt b off (leBytes n v))
    (hv : v < 256 ^ n) : readLe b off n = some v := by
  rw [LsmKv.readLe, h.readAt (by simp), Option.map_some, leNat_leBytes_of_lt hv]

/-! ## CRC-32 -/

/-- Entry `i` of the table `crc32` builds: eight shift-and-xor steps on `i`. -/
def crcTable (i : UInt32) : UInt32 :=
  (List.range 8).foldl (fun (c : UInt32) _ =>
    if c &&& 1 = 1 then (0xEDB88320 : UInt32) ^^^ (c >>> 1) else c >>> 1) i

def crcStep (crc : UInt32) (b : UInt8) : UInt32 :=
  crcTable ((crc ^^^ b.toUInt32) &&& 0xFF) ^^^ (crc >>> 8)

/-- CRC-32 (IEEE), the one checksum all three translation units define. -/
def crc32 (data : Bytes) : ℕ := (data.foldl crcStep (0xFFFFFFFF : UInt32) ^^^ 0xFFFFFFFF).toNat

theorem crc32_lt (data : Bytes) : crc32 data < 256 ^ 4 := UInt32.toNat_lt _

end LsmKv
