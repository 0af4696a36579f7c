import LsmKv.Bloom
import LsmKv.Errors
import LsmKv.Loops
import LsmKv.Memtable

/-!
# The SSTable format

The encodings of entries, index entries, filter and footer, and the checked reads all parsers
of the format are made of. A read outside a buffer is undefined in the source; here it is a
fault of its own, so that its absence can be proved.
-/

namespace LsmKv
namespace Sst

def kMagic : ℕ := 0x4C535354
def kVersion : ℕ := 1
def kFooterSize : ℕ := 8 * 4 + 4 + 4
def kEntryHeader : ℕ := 4 + 4 + 8 + 1
def kFlagTombstone : UInt8 := 1

def putU32 (v : ℕ) : Bytes := leBytes 4 v
def putU64 (v : ℕ) : Bytes := leBytes 8 v

abbrev Entry := Bytes × MemEntry

def encodeEntry (e : Entry) : Bytes :=
  putU32 e.1.length ++ (putU32 e.2.value.length ++ (putU64 e.2.seqno ++
    ((if e.2.tombstone then kFlagTombstone else 0) :: (e.1 ++ e.2.value))))

def entryLen (e : Entry) : ℕ := kEntryHeader + e.1.length + e.2.value.length

structure IndexEntry where
  firstKey : Bytes
  offset : ℕ
  size : ℕ
  deriving DecidableEq, Repr

def encodeIndexEntry (e : IndexEntry) : Bytes :=
  putU32 e.firstKey.length ++ (e.firstKey ++ (putU64 e.offset ++ putU32 e.size))

def indexEntryLen (e : IndexEntry) : ℕ := 4 + e.firstKey.length + 12

/-- A block behind its checksum. -/
def withCrc (b : Bytes) : Bytes := b ++ putU32 (crc32 b)

structure Footer where
  indexOff : ℕ
  indexSize : ℕ
  filterOff : ℕ
  filterSize : ℕ
  version : ℕ
  magic : ℕ
  deriving DecidableEq, Repr

def Footer.encode (f : Footer) : Bytes :=
  putU64 f.indexOff ++ (putU64 f.indexSize ++ (putU64 f.filterOff ++ (putU64 f.filterSize ++
    (putU32 f.version ++ putU32 f.magic))))

/-- The fields of a footer that was read in full. -/
def Footer.decode (b : Bytes) : Footer where
  indexOff := leNat (b.take 8)
  indexSize := leNat ((b.drop 8).take 8)
  filterOff := leNat ((b.drop 16).take 8)
  filterSize := leNat ((b.drop 24).take 8)
  version := leNat ((b.drop 32).take 4)
  magic := leNat ((b.drop 36).take 4)

/-! ## Checked reads -/

/-- How reading or writing a table can end other than with a result. -/
inductive Fault where
  /-- an `lsm::Error` -/
  | thrown (e : Error)
  /-- a buffer of more than `PTRDIFF_MAX` bytes was asked for -/
  | lengthError
  /-- an access outside a buffer -/
  | outside
  /-- a remainder by zero -/
  | divideByZero
  deriving DecidableEq, Repr

/-- The `CorruptionDetected` of the readers: where, and what. -/
def corrupt (offset : ℕ) (what : String) : Fault :=
  .thrown ⟨.corruptionDetected, "@" ++ toString offset ++ ": " ++ what⟩

section
variable {ε α β : Type}

def demand (e : ε) : Option α → Except ε α
  | some a => .ok a
  | none => .error e

@[simp] theorem demand_some (e : ε) (a : α) : demand e (some a) = .ok a := rfl

@[simp] theorem ok_bind (a : α) (f : α → Except ε β) : (Except.ok a >>= f) = f a := rfl

@[simp] theorem error_bind (e : ε) (f : α → Except ε β) :
    ((Except.error e : Except ε α) >>= f) = .error e := rfl

end

/-- `fseek` to `off` and `fread` of `n` bytes; the offset goes through a `long`. -/
def readFile (file : Bytes) (off n : ℕ) : Option Bytes :=
  if 2 ^ 63 ≤ off then none else if n = 0 then some [] else readAt file off n

/-- A fresh buffer of `n` bytes filled from the file. -/
def readRange (file : Bytes) (off n : ℕ) (short : Fault) : Except Fault Bytes :=
  if 2 ^ 63 ≤ n then .error .lengthError else demand short (readFile file off n)

/-- The stored checksum of a block of `n` bytes against the computed one. -/
def crcMatches (block : Bytes) (n : ℕ) : Except Fault Bool := do
  let body ← demand .outside (readAt block 0 (n - 4))
  let stored ← demand .outside (readLe block (n - 4) 4)
  .ok (crc32 body == stored)

/-- The entry at `p` of a data block that stands at `base`, and where the next one starts. -/
def readEntry (base : ℕ) (block : Bytes) (entries_end p : ℕ) : Except Fault (Entry × ℕ) :=
  if entries_end < p + kEntryHeader then .error (corrupt (base + p) "truncated entry")
  else do
    let klen ← demand .outside (readLe block p 4)
    let vlen ← demand .outside (readLe block (p + 4) 4)
    let seqno ← demand .outside (readLe block (p + 8) 8)
    let flags ← demand .outside block[p + 16]?
    if entries_end < p + kEntryHeader + klen + vlen then
      .error (corrupt (base + p) "entry overruns block")
    else do
      let key ← demand .outside (readAt block (p + kEntryHeader) klen)
      let value ← demand .outside (readAt block (p + kEntryHeader + klen) vlen)
      .ok ((key, ⟨value, seqno, flags &&& kFlagTombstone ≠ 0⟩),
        p + kEntryHeader + klen + vlen)

/-! ## What the reads find -/

@[simp] theorem length_putU32 (v : ℕ) : (putU32 v).length = 4 := length_leBytes 4 v
@[simp] theorem length_putU64 (v : ℕ) : (putU64 v).length = 8 := length_leBytes 8 v

@[simp] theorem length_encodeEntry (e : Entry) : (encodeEntry e).length = entryLen e := by
  simp [encodeEntry, entryLen, kEntryHeader]
  omega

theorem entryLen_pos (e : Entry) : 0 < entryLen e := by
  simp only [entryLen, kEntryHeader]
  omega

@[simp] theorem length_encodeIndexEntry (e : IndexEntry) :
    (encodeIndexEntry e).length = indexEntryLen e := by
  simp [encodeIndexEntry, indexEntryLen]
  omega

@[simp] theorem length_withCrc (b : Bytes) : (withCrc b).length = b.length + 4 := by
  simp [withCrc]

@[simp] theorem length_encode_footer (f : Footer) : f.encode.length = kFooterSize := by
  simp [Footer.encode, kFooterSize]

theorem readFile_of_hasAt {file s : Bytes} {off n : ℕ} (h : HasAt file off s)
    (hn : n = s.length) (hoff : off < 2 ^ 63) : readFile file off n = some s := by
  rw [readFile, if_neg (by omega)]
  split
  · rename_i hzero
    obtain rfl : s = [] := List.eq_nil_of_length_eq_zero (by omega)
    rfl
  · exact h.readAt hn

theorem readRange_of_hasAt {file s : Bytes} {off n : ℕ} {short : Fault} (h : HasAt file off s)
    (hn : n = s.length) (hlen : file.length < 2 ^ 63) : readRange file off n short = .ok s := by
  have hle := h.le
  rw [readRange, if_neg (by omega), readFile_of_hasAt h hn (by omega), demand_some]

theorem crcMatches_withCrc (b : Bytes) :
    crcMatches (withCrc b) (withCrc b).length = .ok true := by
  rw [length_withCrc]
  have hbody : HasAt (withCrc b) 0 b := ⟨[], putU32 (crc32 b), rfl, rfl⟩
  have hcrc : HasAt (withCrc b) b.length (putU32 (crc32 b)) := ⟨b, [], by simp [withCrc], rfl⟩
  rw [crcMatches, Nat.add_sub_cancel, hbody.readAt rfl, hcrc.readLe (crc32_lt b)]
  simp

/-- An entry whose fields fit their widths. -/
structure EntryFits (e : Entry) : Prop where
  key : e.1.length < 2 ^ 32
  value : e.2.value.length < 2 ^ 32
  seqno : e.2.seqno < 2 ^ 64

theorem HasAt.getElem? {b rest : Bytes} {off : ℕ} {c : UInt8} (h : HasAt b off (c :: rest)) :
    b[off]? = some c := by
  obtain ⟨pre, post, rfl, rfl⟩ := h
  simp

theorem readEntry_of_hasAt {base : ℕ} {block : Bytes} {entries_end p : ℕ} {e : Entry}
    (hfit : EntryFits e) (h : HasAt block p (encodeEntry e)) (hend : p + entryLen e ≤ entries_end) :
    readEntry base block entries_end p = .ok (e, p + entryLen e) := by
  obtain ⟨key, value, seqno, tombstone⟩ := e
  have hklen := h.left.readLe hfit.key
  have h₁ := h.right
  have hvlen := h₁.left.readLe hfit.value
  have h₂ := h₁.right
  have hseqno := h₂.left.readLe hfit.seqno
  have h₃ := h₂.right
  have hflags := HasAt.getElem? h₃
  have hbody : HasAt block (p + kEntryHeader) (key ++ value) := by
    have := (hasAt_append (s := [_]).mp h₃).2
    simpa [kEntryHeader, Nat.add_assoc] using this
  have hkey := hbody.left.readAt rfl
  have hvalue := hbody.right.readAt rfl
  simp only [length_putU32, length_putU64, Nat.add_assoc, Nat.reduceAdd] at hvlen hseqno hflags
  simp only [entryLen] at hend
  have hflag : ((if tombstone = true then kFlagTombstone else 0) &&& kFlagTombstone ≠ 0) =
      (tombstone = true) := by
    cases tombstone <;> simp [kFlagTombstone]
  rw [readEntry, if_neg (by omega), hklen, hvlen, hseqno, hflags]
  simp only [demand_some, ok_bind]
  rw [if_neg (by omega), hkey, hvalue]
  simp only [demand_some, ok_bind, hflag, entryLen, Nat.add_assoc]
  simp

theorem decode_encode_footer {f : Footer} (h₁ : f.indexOff < 2 ^ 64) (h₂ : f.indexSize < 2 ^ 64)
    (h₃ : f.filterOff < 2 ^ 64) (h₄ : f.filterSize < 2 ^ 64) (h₅ : f.version < 2 ^ 32)
    (h₆ : f.magic < 2 ^ 32) : Footer.decode f.encode = f := by
  have hd : ∀ (v : ℕ) (rest : Bytes), (putU64 v ++ rest).drop 8 = rest := fun v rest =>
    List.drop_left' (length_putU64 v)
  have ht : ∀ (v : ℕ) (rest : Bytes), (putU64 v ++ rest).take 8 = putU64 v := fun v rest =>
    List.take_left' (length_putU64 v)
  have hv : ∀ v < 2 ^ 64, leNat (putU64 v) = v := fun v hv => leNat_leBytes_of_lt hv
  have hw : ∀ v < 2 ^ 32, leNat (putU32 v) = v := fun v hv => leNat_leBytes_of_lt hv
  have h16 : f.encode.drop 16 = (f.encode.drop 8).drop 8 := by rw [List.drop_drop]
  have h24 : f.encode.drop 24 = ((f.encode.drop 8).drop 8).drop 8 := by
    rw [List.drop_drop, List.drop_drop]
  have h32 : f.encode.drop 32 = (((f.encode.drop 8).drop 8).drop 8).drop 8 := by
    rw [List.drop_drop, List.drop_drop, List.drop_drop]
  have h36 : f.encode.drop 36 = ((((f.encode.drop 8).drop 8).drop 8).drop 8).drop 4 := by
    rw [List.drop_drop, List.drop_drop, List.drop_drop, List.drop_drop]
  have hd4 : (putU32 f.version ++ putU32 f.magic).drop 4 = putU32 f.magic :=
    List.drop_left' (length_putU32 _)
  have ht4 : (putU32 f.version ++ putU32 f.magic).take 4 = putU32 f.version :=
    List.take_left' (length_putU32 _)
  have hm4 : (putU32 f.magic).take 4 = putU32 f.magic :=
    List.take_of_length_le (length_putU32 _).le
  unfold Footer.decode
  rw [h16, h24, h32, h36]
  simp only [Footer.encode, hd, ht, hd4, ht4, hm4, hv _ h₁, hv _ h₂, hv _ h₃, hv _ h₄, hw _ h₅,
    hw _ h₆]

end Sst
end LsmKv
