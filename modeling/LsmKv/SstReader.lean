import LsmKv.SstFormat

/-!
# Whole-file readers of an SSTable

`inspect_sstable`, `scan_sstable` and `verify_sstable`: three parsers of the same bytes, each
with its own walk over the index. A file that cannot be opened is `none`.
-/

namespace LsmKv
namespace Sst

/-- The overview of a table, less the average block size, which is a `double`. -/
structure SstInfo where
  fileSize : ℕ
  version : ℕ
  indexOff : ℕ
  indexSize : ℕ
  filterOff : ℕ
  filterSize : ℕ
  dataBlocks : ℕ := 0
  blockMin : ℕ := 0
  blockMax : ℕ := 0
  bloomBits : ℕ := 0
  bloomHashes : ℕ := 0
  bloomKeys : ℕ := 0
  deriving DecidableEq, Repr

/-- Whether the footer's sections reach past the file, in 64-bit arithmetic. -/
def Footer.outOfRange (f : Footer) (size minFilter : ℕ) : Bool :=
  size < (f.indexOff + f.indexSize) % 2 ^ 64 || size < (f.filterOff + f.filterSize) % 2 ^ 64 ||
    f.indexSize < 4 || f.filterSize < minFilter

/-! ## inspect_sstable -/

/-- `fail` of `inspect_sstable`, the file name left out. -/
def inspectFail (what : String) : Fault := .thrown ⟨.corruptionDetected, what⟩

def inspectRead (file : Bytes) (off n : ℕ) : Except Fault Bytes :=
  readRange file off n (inspectFail ("short read at offset " ++ toString off))

/-- A block of the given size is taken into the overview. -/
def SstInfo.countBlock (info : SstInfo) (block_size : ℕ) : SstInfo :=
  { info with
    dataBlocks := info.dataBlocks + 1
    blockMin := if info.blockMin = 0 then block_size else min info.blockMin block_size
    blockMax := max info.blockMax block_size }

/-- One index entry of the walk, which looks at the block size only. It moves on by a sum of 32
bits. -/
def inspectStep (block : Bytes) (stop : ℕ) (info : SstInfo) (pos : ℕ) :
    Except Fault (SstInfo × ℕ) :=
  if stop < pos + 4 then .error (inspectFail "truncated index entry")
  else do
    let key_len ← demand .outside (readLe block pos 4)
    if stop < pos + 4 + key_len + 12 then .error (inspectFail "truncated index entry")
    else do
      let pos := pos + 4 + (key_len + 8) % 2 ^ 32
      let block_size ← demand .outside (readLe block pos 4)
      .ok (info.countBlock block_size, pos + 4)

def inspectFooter (file : Bytes) : Except Fault Footer :=
  if file.length < kFooterSize then .error (inspectFail "file too small for footer")
  else do
    let b ← inspectRead file (file.length - kFooterSize) kFooterSize
    let f := Footer.decode b
    if f.magic ≠ kMagic then .error (inspectFail "bad footer magic")
    else if f.outOfRange file.length 24 then .error (inspectFail "footer offsets out of range")
    else .ok f

def inspectIndex (file : Bytes) (f : Footer) : Except Fault SstInfo := do
  let block ← inspectRead file f.indexOff f.indexSize
  if ← crcMatches block f.indexSize then
    walk (inspectStep block (f.indexSize - 4)) (f.indexSize - 4) f.indexSize
      ⟨file.length, f.version, f.indexOff, f.indexSize, f.filterOff, f.filterSize, 0, 0, 0, 0, 0, 0⟩ 0
  else .error (inspectFail "index block checksum mismatch")

def inspectFilter (file : Bytes) (f : Footer) (info : SstInfo) : Except Fault SstInfo := do
  let block ← inspectRead file f.filterOff f.filterSize
  if ← crcMatches block f.filterSize then do
    let bloom_bits ← demand .outside (readLe block 0 8)
    let bloom_hashes ← demand .outside (readLe block 8 4)
    let bloom_keys ← demand .outside (readLe block 12 8)
    .ok { info with bloomBits := bloom_bits, bloomHashes := bloom_hashes, bloomKeys := bloom_keys }
  else .error (inspectFail "filter block checksum mismatch")

def inspectSstable (file : Option Bytes) : Except Fault SstInfo :=
  match file with
  | none => .error (.thrown ⟨.ioFailure, "cannot open SSTable"⟩)
  | some file => do
    let f ← inspectFooter file
    let info ← inspectIndex file f
    inspectFilter file f info

/-! ## scan_sstable -/

/-- The entries of one data block, after those collected so far. -/
def scanBlock (base : ℕ) (block : Bytes) (entries : List Entry) : Except Fault (List Entry) := do
  let restart_count ← demand .outside (readLe block (block.length - 8) 4)
  if block.length < 8 + 4 * restart_count then .error (corrupt base "restart trailer invalid")
  else
    walk (fun entries p => do
      let (e, p) ← readEntry base block (block.length - 8 - 4 * restart_count) p
      .ok (entries ++ [e], p)) (block.length - 8 - 4 * restart_count) block.length entries 0

/-- One index entry of the walk, which the inspection has validated, and its block. This walk
too moves on by a sum of 32 bits. -/
def scanStep (file index : Bytes) (entries : List Entry) (pos : ℕ) :
    Except Fault (List Entry × ℕ) := do
  let key_len ← demand .outside (readLe index pos 4)
  let pos := pos + (4 + key_len) % 2 ^ 32
  let block_off ← demand .outside (readLe index pos 8)
  let block_size ← demand .outside (readLe index (pos + 8) 4)
  let block ← readRange file block_off block_size (corrupt block_off "short read on data block")
  let sound ← if block_size < 12 then .ok false else crcMatches block block_size
  if sound then do
    let entries ← scanBlock block_off block entries
    .ok (entries, pos + 12)
  else .error (corrupt block_off "data block checksum mismatch")

/-- `scan_sstable`, with the entries it calls back with. -/
def scanSstable (file : Option Bytes) : Except Fault (List Entry) := do
  let info ← inspectSstable file
  match file with
  | none => .error (.thrown ⟨.ioFailure, "cannot open SSTable"⟩)
  | some file => do
    let index ← readRange file info.indexOff info.indexSize
      (corrupt info.indexOff "short read on index")
    walk (scanStep file index) (info.indexSize - 4) info.indexSize [] 0

/-! ## verify_sstable -/

/-- How the body of `verify_sstable` ends early: with a verdict, or worse. -/
inductive Stop where
  | verdict (v : String)
  | fault (f : Fault)
  deriving DecidableEq, Repr

def Stop.of {α : Type} : Except Fault α → Except Stop α
  | .ok a => .ok a
  | .error f => .error (.fault f)

@[simp] theorem stop_of_ok {α : Type} (a : α) : Stop.of (.ok a) = .ok a := rfl

/-- A fresh buffer, or the verdict when the file does not fill it. That a smaller buffer may find
no memory, and throw `bad_alloc`, is left out. -/
def verifyRead (file : Bytes) (off n : ℕ) (v : String) : Except Stop Bytes :=
  if 2 ^ 63 ≤ n then .error (.fault .lengthError)
  else demand (.verdict v) (readFile file off n)

def verifyFooter (file : Bytes) : Except Stop Footer :=
  if file.length < kFooterSize then .error (.verdict "file too small for footer")
  else do
    let b ← verifyRead file (file.length - kFooterSize) kFooterSize "cannot read footer"
    let f := Footer.decode b
    if f.magic ≠ kMagic then .error (.verdict "bad footer magic")
    else if f.version ≠ kVersion then .error (.verdict "unsupported version")
    else if f.outOfRange file.length 4 then .error (.verdict "footer offsets out of range")
    else .ok f

/-- A section with its checksum. -/
def verifySection (file : Bytes) (off n : ℕ) (unreadable mismatch : String) :
    Except Stop Bytes := do
  let block ← verifyRead file off n unreadable
  if ← Stop.of (crcMatches block n) then .ok block else .error (.verdict mismatch)

def verifyStep (file index : Bytes) (index_off stop : ℕ) (_ : Unit) (pos : ℕ) :
    Except Stop (Unit × ℕ) :=
  if stop < pos + 4 then .error (.verdict "truncated index entry")
  else do
    let key_len ← demand (.fault .outside) (readLe index pos 4)
    if stop < pos + 4 + key_len + 12 then .error (.verdict "truncated index entry")
    else do
      let block_off ← demand (.fault .outside) (readLe index (pos + 4 + key_len) 8)
      let block_size ← demand (.fault .outside) (readLe index (pos + 4 + key_len + 8) 4)
      if index_off < (block_off + block_size) % 2 ^ 64 || block_size < 4 then
        .error (.verdict ("data block offset out of range at file offset " ++ toString block_off))
      else do
        let _ ← verifySection file block_off block_size
          ("cannot read data block at offset " ++ toString block_off)
          ("data block checksum mismatch at offset " ++ toString block_off)
        .ok ((), pos + 4 + key_len + 12)

def verifyFile (file : Bytes) : Except Stop Unit := do
  let f ← verifyFooter file
  let index ← verifySection file f.indexOff f.indexSize "cannot read index block"
    "index block checksum mismatch"
  let _ ← verifySection file f.filterOff f.filterSize "cannot read filter block"
    "filter block checksum mismatch"
  walk (verifyStep file index f.indexOff (f.indexSize - 4)) (f.indexSize - 4) f.indexSize () 0

/-- `verify_sstable`: its verdict, unless it ends in a fault. -/
def verifySstable (file : Option Bytes) : Except Fault String :=
  match file with
  | none => .ok "cannot open file"
  | some file => match verifyFile file with
    | .ok _ => .ok "OK"
    | .error (.verdict v) => .ok v
    | .error (.fault f) => .error f

end Sst
end LsmKv
