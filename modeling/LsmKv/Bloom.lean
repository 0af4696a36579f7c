import LsmKv.Bytes

/-!
# The Bloom filter

The double-hashed filter over a table's keys, as its builder sets it and as a lookup probes
it. What was added is found: no builder step clears a bit.
-/

namespace LsmKv
namespace Bloom

/-- FNV-1a over 64 bits. -/
def fnv1a (s : Bytes) (seed : UInt64) : UInt64 :=
  s.foldl (fun h c => (h ^^^ c.toUInt64) * 1099511628211) (14695981039346656037 ^^^ seed)

/-- The position of the `i`-th probe for a key. -/
def probe (num_bits : ℕ) (key : Bytes) (i : ℕ) : ℕ :=
  let h1 := fnv1a key 0
  let h2 := fnv1a key 0x9E3779B97F4A7C15 ||| 1
  (h1 + UInt64.ofNat i * h2).toNat % num_bits

def probes (num_bits num_hashes : ℕ) (key : Bytes) : List ℕ :=
  (List.range num_hashes).map (probe num_bits key)

def mask (bit : ℕ) : UInt8 := 1 <<< UInt8.ofNat (bit % 8)

def setBit (bits : Bytes) (bit : ℕ) : Bytes := bits.modify (bit / 8) (· ||| mask bit)

/-- Whether a bit is set, if there is a byte for it. -/
def getBit (bits : Bytes) (bit : ℕ) : Option Bool :=
  bits[bit / 8]?.map (fun b => decide (b &&& mask bit ≠ 0))

/-- The bits a builder starts with. -/
def clear (num_bits : ℕ) : Bytes := List.replicate ((num_bits + 7) / 8) 0

def add (num_bits num_hashes : ℕ) (bits key : Bytes) : Bytes :=
  (probes num_bits num_hashes key).foldl setBit bits

/-- The probe loop of a lookup, which stops at the first clear bit. -/
def allSet (bits : Bytes) : List ℕ → Option Bool
  | [] => some true
  | bit :: rest => match getBit bits bit with
    | some true => allSet bits rest
    | other => other

def mayContain (num_bits num_hashes : ℕ) (bits key : Bytes) : Option Bool :=
  allSet bits (probes num_bits num_hashes key)

theorem mask_ne_zero (bit : ℕ) : mask bit ≠ 0 := by
  have hlt : bit % 8 < 8 := Nat.mod_lt _ (by omega)
  unfold mask
  generalize bit % 8 = k at hlt
  match k, hlt with
  | 0, _ | 1, _ | 2, _ | 3, _ | 4, _ | 5, _ | 6, _ | 7, _ => decide

theorem or_and_right (b c m : UInt8) : (b ||| c) &&& m = b &&& m ||| c &&& m := by
  apply UInt8.toBitVec_inj.mp
  ext i hi
  simp
  grind

@[simp] theorem length_setBit (bits : Bytes) (bit : ℕ) :
    (setBit bits bit).length = bits.length := List.length_modify _ _ _

theorem getBit_setBit_self {bits : Bytes} {bit : ℕ} (h : bit / 8 < bits.length) :
    getBit (setBit bits bit) bit = some true := by
  have hself : ∀ b : UInt8, (b ||| mask bit) &&& mask bit ≠ 0 := by
    intro b hzero
    rw [or_and_right, UInt8.or_eq_zero_iff, UInt8.and_self] at hzero
    exact mask_ne_zero bit hzero.2
  simp [getBit, setBit, List.getElem?_eq_getElem h, hself]

/-- Setting a bit clears none. -/
theorem getBit_setBit_mono {bits : Bytes} {bit : ℕ} (other : ℕ)
    (h : getBit bits bit = some true) : getBit (setBit bits other) bit = some true := by
  rw [getBit, Option.map_eq_some_iff] at h
  obtain ⟨b, hb, hset⟩ := h
  have hkeep : (b ||| mask other) &&& mask bit ≠ 0 := by
    intro hzero
    rw [or_and_right, UInt8.or_eq_zero_iff] at hzero
    exact of_decide_eq_true hset hzero.1
  rw [getBit, setBit, List.getElem?_modify, hb]
  by_cases hsame : other / 8 = bit / 8
  · simp [hsame, hkeep]
  · simpa [hsame] using of_decide_eq_true hset

theorem length_foldl_setBit (l : List ℕ) (bits : Bytes) :
    (l.foldl setBit bits).length = bits.length := by
  induction l generalizing bits with
  | nil => rfl
  | cons bit l ih => rw [List.foldl_cons, ih, length_setBit]

theorem getBit_foldl_setBit {l : List ℕ} {bits : Bytes} {bit : ℕ}
    (h : getBit bits bit = some true) : getBit (l.foldl setBit bits) bit = some true := by
  induction l generalizing bits with
  | nil => exact h
  | cons other l ih => exact ih (getBit_setBit_mono other h)

theorem getBit_foldl_of_mem {l : List ℕ} {bits : Bytes} {bit : ℕ} (hmem : bit ∈ l)
    (hlen : bit / 8 < bits.length) : getBit (l.foldl setBit bits) bit = some true := by
  induction l generalizing bits with
  | nil => cases hmem
  | cons other l ih =>
    rw [List.foldl_cons]
    rcases List.mem_cons.mp hmem with rfl | hmem
    · exact getBit_foldl_setBit (getBit_setBit_self hlen)
    · exact ih hmem (by rwa [length_setBit])

theorem allSet_of_forall {bits : Bytes} {l : List ℕ}
    (h : ∀ bit ∈ l, getBit bits bit = some true) : allSet bits l = some true := by
  induction l with
  | nil => rfl
  | cons bit l ih =>
    rw [allSet, h bit List.mem_cons_self]
    exact ih (fun b hb => h b (List.mem_cons_of_mem _ hb))

/-- Every probe has a byte, so a lookup ends with an answer. -/
theorem exists_allSet {bits : Bytes} {l : List ℕ} (h : ∀ bit ∈ l, bit / 8 < bits.length) :
    ∃ answer, allSet bits l = some answer := by
  induction l with
  | nil => exact ⟨true, rfl⟩
  | cons bit l ih =>
    obtain ⟨answer, ha⟩ := ih (fun b hb => h b (List.mem_cons_of_mem _ hb))
    have hbit := List.getElem?_eq_getElem (h bit List.mem_cons_self)
    rw [allSet, getBit, hbit, Option.map_some]
    rcases decide _ with _ | _
    · exact ⟨false, rfl⟩
    · exact ⟨answer, ha⟩

theorem probe_div_lt {num_bits num_hashes : ℕ} (hpos : 0 < num_bits) {key : Bytes} :
    ∀ bit ∈ probes num_bits num_hashes key, bit / 8 < (num_bits + 7) / 8 := by
  intro bit hmem
  obtain ⟨i, -, rfl⟩ := List.mem_map.mp hmem
  have : probe num_bits key i < num_bits := Nat.mod_lt _ hpos
  omega

@[simp] theorem length_add (num_bits num_hashes : ℕ) (bits key : Bytes) :
    (add num_bits num_hashes bits key).length = bits.length := length_foldl_setBit _ _

theorem length_foldl_add (num_bits num_hashes : ℕ) (keys : List Bytes) (bits : Bytes) :
    (keys.foldl (add num_bits num_hashes) bits).length = bits.length := by
  induction keys generalizing bits with
  | nil => rfl
  | cons key keys ih => rw [List.foldl_cons, ih, length_add]

theorem getBit_foldl_add {num_bits num_hashes : ℕ} {keys : List Bytes} {bits : Bytes} {bit : ℕ}
    (h : getBit bits bit = some true) :
    getBit (keys.foldl (add num_bits num_hashes) bits) bit = some true := by
  induction keys generalizing bits with
  | nil => exact h
  | cons key keys ih => exact ih (getBit_foldl_setBit h)

/-- No false negatives: a key that was added may be contained. -/
theorem mayContain_of_mem {num_bits : ℕ} (num_hashes : ℕ) (hpos : 0 < num_bits) {keys : List Bytes}
    {key : Bytes} (hmem : key ∈ keys) :
    mayContain num_bits num_hashes (keys.foldl (add num_bits num_hashes) (clear num_bits)) key =
      some true := by
  obtain ⟨before, rest, rfl⟩ := List.append_of_mem hmem
  refine allSet_of_forall (fun bit hbit => ?_)
  rw [List.foldl_append, List.foldl_cons]
  refine getBit_foldl_add (getBit_foldl_of_mem hbit ?_)
  rw [length_foldl_add, clear, List.length_replicate]
  exact probe_div_lt hpos bit hbit

theorem exists_mayContain {num_bits : ℕ} (num_hashes : ℕ) (hpos : 0 < num_bits) {bits : Bytes}
    (hlen : bits.length = (num_bits + 7) / 8) (key : Bytes) :
    ∃ answer, mayContain num_bits num_hashes bits key = some answer :=
  exists_allSet (fun bit hbit => hlen ▸ probe_div_lt hpos bit hbit)

end Bloom
end LsmKv
