import LsmKv.SstFormat

/-!
# Writing an SSTable

`write_sstable` as the fold over the memtable's rows that it is: rows go into the current
block, a full block is finished with its restart points and checksum, and index, filter and
footer follow the last one. What is on disk is kept as the list of blocks written.
-/

namespace LsmKv
namespace Sst

/-- The settings `write_sstable` reads, with what `BloomBuilder` computes from the false positive
rate in floating point. -/
structure SstConfig where
  blockSize : ℕ
  restartInterval : ℕ
  numBits : ℕ
  numHashes : ℕ
  bitsPerKey : Double

structure SstBuildResult where
  id : ℕ
  fileSize : ℕ
  minKey : Bytes
  maxKey : Bytes
  minSeqno : ℕ
  maxSeqno : ℕ
  entries : ℕ
  bloomBitsPerKey : Double
  bloomHashes : ℕ
  deriving DecidableEq, Repr

/-- The local state of the data block loop. -/
structure Builder where
  blocks : List Bytes := []
  index : List IndexEntry := []
  block : Bytes := []
  restarts : List ℕ := []
  blockFirstKey : Bytes := []
  blockEntries : ℕ := 0
  fileOffset : ℕ := 0
  bits : Bytes
  maxKey : Bytes := []
  minSeqno : ℕ := 2 ^ 64 - 1
  maxSeqno : ℕ := 0

def blockBytes (entries : Bytes) (restarts : List ℕ) : Bytes :=
  withCrc (entries ++ (restarts.flatMap putU32 ++ putU32 restarts.length))

def finishBlock (b : Builder) : Builder :=
  if b.block = [] then b
  else { b with
    blocks := b.blocks ++ [blockBytes b.block b.restarts]
    index := b.index ++
      [⟨b.blockFirstKey, b.fileOffset, (blockBytes b.block b.restarts).length % 2 ^ 32⟩]
    fileOffset := b.fileOffset + (blockBytes b.block b.restarts).length
    block := []
    restarts := []
    blockEntries := 0 }

/-- The part of the loop body before the block size is tested. -/
def pushEntry (cfg : SstConfig) (b : Builder) (e : Entry) : Builder :=
  { b with
    blockFirstKey := if b.block = [] then e.1 else b.blockFirstKey
    restarts := if b.blockEntries % cfg.restartInterval = 0
      then b.restarts ++ [b.block.length % 2 ^ 32] else b.restarts
    block := b.block ++ encodeEntry e
    blockEntries := (b.blockEntries + 1) % 2 ^ 32
    bits := Bloom.add cfg.numBits cfg.numHashes b.bits e.1
    maxKey := e.1
    minSeqno := min b.minSeqno e.2.seqno
    maxSeqno := max b.maxSeqno e.2.seqno }

def addEntry (cfg : SstConfig) (b : Builder) (e : Entry) : Builder :=
  if cfg.blockSize ≤ (pushEntry cfg b e).block.length then finishBlock (pushEntry cfg b e)
  else pushEntry cfg b e

/-- The builder once every row is in a finished block. -/
def buildBlocks (cfg : SstConfig) (mem : Memtable) : Builder :=
  finishBlock (mem.map.entries.foldl (addEntry cfg) { bits := Bloom.clear cfg.numBits })

def indexBlock (index : List IndexEntry) : Bytes := withCrc (index.flatMap encodeIndexEntry)

def filterBlock (cfg : SstConfig) (num_keys : ℕ) (bits : Bytes) : Bytes :=
  withCrc (putU64 cfg.numBits ++ (putU32 cfg.numHashes ++ (putU64 num_keys ++ bits)))

def footer (index_off index_size filter_size : ℕ) : Footer where
  indexOff := index_off
  indexSize := index_size
  filterOff := index_off + index_size
  filterSize := filter_size
  version := kVersion
  magic := kMagic

/-- All that follows the data blocks. -/
def tail (cfg : SstConfig) (num_keys : ℕ) (index_off : ℕ) (index : List IndexEntry)
    (bits : Bytes) : Bytes :=
  indexBlock index ++ (filterBlock cfg num_keys bits ++
    (footer index_off (indexBlock index).length (filterBlock cfg num_keys bits).length).encode)

/-- Some block is longer than the 32 bits its index entry has for the size. -/
def cutsSize (cfg : SstConfig) (mem : Memtable) : Bool :=
  (buildBlocks cfg mem).blocks.any (fun b => 2 ^ 32 ≤ b.length)

/-- Everything `write_sstable` writes. -/
def tableBytes (cfg : SstConfig) (mem : Memtable) : Bytes :=
  (buildBlocks cfg mem).blocks.flatten ++ tail cfg mem.entries (buildBlocks cfg mem).fileOffset
    (buildBlocks cfg mem).index (buildBlocks cfg mem).bits

/-- `write_sstable`: the result, and the bytes of the file it publishes. The first row takes
the remainder by `restart_interval`. -/
def writeSstable (id : ℕ) (mem : Memtable) (cfg : SstConfig) :
    Except Fault (SstBuildResult × Bytes) :=
  match mem.map.entries with
  | [] => .error (.thrown ⟨.invalidArgument, "refusing to flush an empty memtable"⟩)
  | first :: _ =>
    if cfg.restartInterval = 0 then .error .divideByZero
    else
      let b := buildBlocks cfg mem
      .ok (⟨id, (tableBytes cfg mem).length, first.1, b.maxKey, b.minSeqno, b.maxSeqno,
        mem.entries, cfg.bitsPerKey, cfg.numHashes⟩, tableBytes cfg mem)

end Sst
end LsmKv
