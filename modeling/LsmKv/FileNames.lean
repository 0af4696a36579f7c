import LsmKv.Decimal
import LsmKv.Layers
import Mathlib.Data.List.TakeWhile

/-!
# The names of segments and tables

Segments and tables go by numbers, their files by names. A name is printed into sixteen bytes,
which cut off the extension from the twelfth digit on; a file whose name is cut is not found by
its extension again. From the sixteenth digit on numbers share names.
-/

namespace LsmKv
namespace FileNames
open OrderedMap

def dotWal : Bytes := [46, 119, 97, 108]
def dotSst : Bytes := [46, 115, 115, 116]
def dotTmp : Bytes := [46, 116, 109, 112]

/-- `snprintf(buf, 16, "%06llu" suffix, id)` -/
def fileName (suffix : Bytes) (id : ℕ) : Bytes := (padded 6 id ++ suffix).take 15

def segmentName (id : ℕ) : Bytes := fileName dotWal id

def sstFileName (id : ℕ) : Bytes := fileName dotSst id

/-- Stem and extension of a file name, as `std::filesystem::path` splits it: at the last dot,
unless that is the first character. -/
def splitName (name : Bytes) : Bytes × Bytes :=
  let tail := name.reverse.takeWhile (· ≠ 46)
  let head := name.reverse.dropWhile (· ≠ 46)
  if head.length ≤ 1 ∨ name = [46, 46] then (name, [])
  else (head.tail.reverse, 46 :: tail.reverse)

def stem (name : Bytes) : Bytes := (splitName name).1

def extension (name : Bytes) : Bytes := (splitName name).2

/-- What `list_segments` makes of a name: the digits of a segment's number, or nothing. -/
def numberOf (suffix name : Bytes) : Option Bytes :=
  if extension name ≠ suffix then none
  else if stem name = [] ∨ !(stem name).all isDigit then none
  else some (stem name)

/-! ## Stems and extensions -/

theorem wal_ne_dot : ∀ c ∈ ([119, 97, 108] : Bytes), c ≠ 46 := by simp

theorem sst_ne_dot : ∀ c ∈ ([115, 115, 116] : Bytes), c ≠ 46 := by simp

theorem splitName_append {s ext : Bytes} (hs : s ≠ []) (hext : ∀ c ∈ ext, c ≠ 46)
    (hdots : ext = [] → s ≠ [46]) : splitName (s ++ 46 :: ext) = (s, 46 :: ext) := by
  have hrev : (s ++ 46 :: ext).reverse = ext.reverse ++ 46 :: s.reverse := by simp
  have hpos : ∀ c ∈ ext.reverse, decide (c ≠ 46) = true := fun c hc =>
    decide_eq_true (hext c (List.mem_reverse.mp hc))
  have htake : (s ++ 46 :: ext).reverse.takeWhile (· ≠ 46) = ext.reverse := by
    rw [hrev, List.takeWhile_append_of_pos hpos, List.takeWhile_cons_of_neg (by simp),
      List.append_nil]
  have hdrop : (s ++ 46 :: ext).reverse.dropWhile (· ≠ 46) = 46 :: s.reverse := by
    rw [hrev, List.dropWhile_append_of_pos hpos, List.dropWhile_cons_of_neg (by simp)]
  have hlength : ¬((46 : UInt8) :: s.reverse).length ≤ 1 := by
    have := List.length_pos_iff_ne_nil.mpr hs
    simp only [List.length_cons, List.length_reverse]
    omega
  have hname : s ++ 46 :: ext ≠ [46, 46] := by
    intro h
    obtain ⟨c, s, rfl⟩ := List.exists_cons_of_ne_nil hs
    obtain ⟨rfl, h⟩ := List.cons.inj h
    rcases s with _ | ⟨b, s⟩
    · exact hdots (List.cons.inj (List.cons.inj h).2).2 rfl
    · simp at h
  rw [splitName, htake, hdrop, if_neg (not_or.mpr ⟨hlength, hname⟩)]
  simp

theorem extension_of_no_dot {name : Bytes} (h : ∀ c ∈ name, c ≠ 46) : extension name = [] := by
  have hdrop : name.reverse.dropWhile (· ≠ 46) = [] := by
    rw [List.dropWhile_eq_nil_iff]
    exact fun c hc => decide_eq_true (h c (List.mem_reverse.mp hc))
  rw [extension, splitName, hdrop]
  simp

/-- No digit is a dot. -/
theorem ne_dot_of_isDigit {c : UInt8} (h : isDigit c = true) : c ≠ 46 := by
  rintro rfl
  simp [isDigit] at h

section
variable {suffix ext : Bytes} {id : ℕ}

/-! ## Names of numbers -/

/-- A number of up to eleven digits leaves room for the extension. -/
theorem fileName_of_lt (hsuffix : suffix.length = 4) (h : id < 10 ^ 11) :
    fileName suffix id = padded 6 id ++ suffix := by
  have hlength := (length_padded_le (w := 6) (by omega) (by omega)).mpr h
  rw [fileName, List.take_of_length_le]
  rw [List.length_append]
  omega

theorem splitName_fileName (hsuffix : suffix = 46 :: ext) (hlen : ext.length = 3)
    (hext : ∀ c ∈ ext, c ≠ 46) (h : id < 10 ^ 11) :
    splitName (fileName suffix id) = (padded 6 id, suffix) := by
  rw [fileName_of_lt (by rw [hsuffix, List.length_cons, hlen]) h, hsuffix]
  refine splitName_append padded_ne_nil hext ?_
  rintro rfl
  cases hlen

theorem numberOf_fileName (hsuffix : suffix = 46 :: ext) (hlen : ext.length = 3)
    (hext : ∀ c ∈ ext, c ≠ 46) (h : id < 10 ^ 11) :
    numberOf suffix (fileName suffix id) = some (padded 6 id) := by
  have hdigits : (padded 6 id).all isDigit = true :=
    List.all_eq_true.mpr fun c hc => isDigit_of_mem_padded hc
  rw [numberOf, extension, stem, splitName_fileName hsuffix hlen hext h]
  simp [hdigits, padded_ne_nil]

theorem numberOf_segmentName (h : id < 10 ^ 11) :
    numberOf dotWal (segmentName id) = some (padded 6 id) :=
  numberOf_fileName rfl rfl wal_ne_dot h

theorem numberOf_sstFileName (h : id < 10 ^ 11) :
    numberOf dotSst (sstFileName id) = some (padded 6 id) :=
  numberOf_fileName rfl rfl sst_ne_dot h

/-- From the twelfth digit on the extension is cut short, or gone. -/
theorem numberOf_fileName_of_le (hsuffix : suffix = 46 :: ext) (hlen : ext.length = 3)
    (hext : ∀ c ∈ ext, c ≠ 46) (h : 10 ^ 11 ≤ id) :
    numberOf suffix (fileName suffix id) = none := by
  have hlong : 11 < (padded 6 id).length := by
    rw [← not_le, length_padded_le (by omega) (by omega)]
    omega
  have hdigits : ∀ c ∈ padded 6 id, c ≠ 46 := fun c hc =>
    ne_dot_of_isDigit (isDigit_of_mem_padded hc)
  have hname : fileName suffix id =
      (padded 6 id).take 15 ++ suffix.take (15 - (padded 6 id).length) := by
    rw [fileName, List.take_append]
  have hother : extension (fileName suffix id) ≠ suffix := by
    rw [hname, hsuffix]
    rcases hroom : 15 - (padded 6 id).length with _ | n
    · rw [List.take_zero, List.append_nil, extension_of_no_dot]
      · simp
      · exact fun c hc => hdigits c (List.mem_of_mem_take hc)
    · have hfull : (padded 6 id).take 15 = padded 6 id := List.take_of_length_le (by omega)
      rw [hfull, List.take_succ_cons, extension, splitName_append padded_ne_nil]
      · intro hcut
        have hlength := congrArg List.length (List.cons.inj hcut).2
        rw [List.length_take, hlen] at hlength
        omega
      · exact fun c hc => hext c (List.mem_of_mem_take hc)
      · intro _ hdot
        have := congrArg List.length hdot
        simp only [List.length_singleton] at this
        omega
  rw [numberOf, if_pos hother]

theorem numberOf_segmentName_of_le (h : 10 ^ 11 ≤ id) : numberOf dotWal (segmentName id) = none :=
  numberOf_fileName_of_le rfl rfl wal_ne_dot h

/-- Up to fifteen digits are all in the name. -/
theorem takeWhile_fileName (hsuffix : suffix = 46 :: ext) (h : id < 10 ^ 15) :
    (fileName suffix id).takeWhile isDigit = padded 6 id := by
  have hlength := (length_padded_le (w := 6) (by omega) (by omega)).mpr h
  have hrest : (suffix.take (15 - (padded 6 id).length)).takeWhile isDigit = [] := by
    rw [hsuffix]
    rcases 15 - (padded 6 id).length with _ | n
    · rfl
    · exact List.takeWhile_cons_of_neg (by decide)
  rw [fileName, List.take_append, List.take_of_length_le hlength,
    List.takeWhile_append_of_pos (fun c hc => isDigit_of_mem_padded hc), hrest, List.append_nil]

theorem fileName_inj (hsuffix : suffix = 46 :: ext) {id' : ℕ} (h : id < 10 ^ 15)
    (h' : id' < 10 ^ 15) (heq : fileName suffix id = fileName suffix id') : id = id' := by
  have hdigits := congrArg (List.takeWhile isDigit) heq
  rw [takeWhile_fileName hsuffix h, takeWhile_fileName hsuffix h'] at hdigits
  exact padded_inj hdigits

end

/-- Of a longer number the last digits go. -/
example : sstFileName (10 ^ 15) = sstFileName (10 ^ 15 + 1) := by decide +kernel

theorem numberOf_eq_some {suffix name digits : Bytes} (h : numberOf suffix name = some digits) :
    extension name = suffix ∧ digits ≠ [] ∧ ∀ c ∈ digits, isDigit c = true := by
  rw [numberOf] at h
  split at h
  · cases h
  · rename_i hext
    split at h
    · cases h
    · rename_i hstem
      obtain rfl := Option.some.inj h
      obtain ⟨hne, hall⟩ := not_or.mp hstem
      exact ⟨not_not.mp hext, hne, List.all_eq_true.mp (by simpa using hall)⟩

/-! ## Directories of numbers -/

universe u
variable {F : Type u}

theorem mem_keys_iff {κ : Type*} [LinearOrder κ] {m : OrderedMap κ F} {k : κ} :
    k ∈ m.keys ↔ ∃ f, m.find? k = some f := by
  rw [OrderedMap.keys, List.mem_map]
  constructor
  · rintro ⟨⟨k, f⟩, hp, rfl⟩
    exact ⟨f, find?_eq_some_iff.mpr hp⟩
  · rintro ⟨f, hf⟩
    exact ⟨(k, f), find?_eq_some_iff.mp hf, rfl⟩

theorem nodup_keys {κ : Type*} [LinearOrder κ] (m : OrderedMap κ F) : m.keys.Nodup :=
  List.pairwise_map.mpr (m.sorted.imp fun h => h.ne)

theorem mem_keys_insert {κ : Type*} [LinearOrder κ] {m : OrderedMap κ F} {k k' : κ} {f : F} :
    k' ∈ (m.insert k f).keys ↔ k = k' ∨ k' ∈ m.keys := by
  rw [mem_keys_iff, mem_keys_iff, find?_insert]
  split <;> simp_all

theorem mem_keys_erase {κ : Type*} [LinearOrder κ] {m : OrderedMap κ F} {k k' : κ} :
    k' ∈ (m.erase k).keys ↔ k ≠ k' ∧ k' ∈ m.keys := by
  rw [mem_keys_iff, mem_keys_iff, find?_erase]
  split <;> simp_all

/-- The segments of a log directory that `list_segments` finds. -/
def listed (m : OrderedMap ℕ F) : OrderedMap ℕ F :=
  m.filter fun id _ => (numberOf dotWal (segmentName id)).isSome

/-- The segments whose name is cut. -/
def unlisted (m : OrderedMap ℕ F) : OrderedMap ℕ F :=
  m.filter fun id _ => (numberOf dotWal (segmentName id)).isNone

/-- Every number leaves room for the extension. -/
def Listable (m : OrderedMap ℕ F) : Prop := ∀ id ∈ m.keys, id < 10 ^ 11

section
variable {m : OrderedMap ℕ F}

theorem listable_empty : Listable (∅ : OrderedMap ℕ F) := fun _ h => absurd h List.not_mem_nil

theorem Listable.numberOf_eq (h : Listable m) {p : ℕ × F} (hp : p ∈ m.entries) :
    numberOf dotWal (segmentName p.1) = some (padded 6 p.1) :=
  numberOf_segmentName (h p.1 (List.mem_map_of_mem hp))

theorem Listable.listed_eq (h : Listable m) : listed m = m := by
  refine ext_entries (List.filter_eq_self.mpr fun p hp => ?_)
  dsimp only
  rw [h.numberOf_eq hp]
  rfl

theorem Listable.unlisted_eq (h : Listable m) : unlisted m = ∅ := by
  refine ext_entries (List.filter_eq_nil_iff.mpr fun p hp => ?_)
  dsimp only
  rw [h.numberOf_eq hp]
  simp

end

end FileNames
end LsmKv
