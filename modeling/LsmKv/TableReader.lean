import LsmKv.SstReader
import LsmKv.SstWriter

/-!
# Point lookups in an SSTable

The read side of one table file: lazily loaded footer, filter and index, the block cache, and
the search inside a block. The descriptor pool only decides when a reader's file is closed
between two lookups; `fileOpen` may change there at will.
-/

namespace LsmKv
namespace Sst

/-- Metadata of one live table. The file name follows from the id. -/
structure TableMeta where
  id : ℕ
  minKey : Bytes
  maxKey : Bytes
  minSeqno : ℕ
  maxSeqno : ℕ
  createdAt : ℕ
  fileSize : ℕ
  entries : ℕ
  bloomBitsPerKey : Double
  bloomHashes : ℕ
  deriving DecidableEq, Repr

/-- The metadata the engine makes of a build result. -/
def SstBuildResult.toMeta (r : SstBuildResult) (created_at : ℕ) : TableMeta :=
  ⟨r.id, r.minKey, r.maxKey, r.minSeqno, r.maxSeqno, created_at, r.fileSize, r.entries,
    r.bloomBitsPerKey, r.bloomHashes⟩

/-- What a lookup returns: the row as it was written. -/
abbrev TableHit := MemEntry

/-! ## The block cache -/

/-- Blocks under (table id, offset), most recently used first; `map` holds the keys that
have a place in the list. -/
structure BlockCache where
  capacity : ℕ
  lru : List ((ℕ × ℕ) × Bytes) := []
  map : List (ℕ × ℕ) := []
  used : ℕ := 0

namespace BlockCache

def find (key : ℕ × ℕ) (c : BlockCache) : BlockCache × Option Bytes :=
  if key ∈ c.map then
    match c.lru.find? (fun n => n.1 = key) with
    | none => (c, none)
    | some n => ({ c with lru := n :: c.lru.eraseP (fun n => n.1 = key) }, some n.2)
  else (c, none)

/-- `while (used_ > capacity_ && !lru_.empty())`: the last block goes. -/
def evict : ℕ → BlockCache → BlockCache
  | 0, c => c
  | fuel + 1, c =>
    if c.capacity < c.used then
      match c.lru.getLast? with
      | none => c
      | some (key, block) => evict fuel { c with
          lru := c.lru.dropLast
          map := c.map.erase key
          used := (c.used + 2 ^ 64 - block.length) % 2 ^ 64 }
    else c

def insert (key : ℕ × ℕ) (block : Bytes) (c : BlockCache) : BlockCache :=
  if key ∈ c.map then c
  else evict (c.lru.length + 1) { c with
    lru := (key, block) :: c.lru
    map := key :: c.map
    used := (c.used + block.length) % 2 ^ 64 }

end BlockCache

/-! ## The reader -/

structure TableReader where
  file : Option Bytes
  info : TableMeta
  cacheIndexBlocks : Bool
  fileOpen : Bool := false
  footerLoaded : Bool := false
  indexOff : ℕ := 0
  indexSize : ℕ := 0
  filterOff : ℕ := 0
  filterSize : ℕ := 0
  index : List IndexEntry := []
  indexPinned : Bool := false
  bloomBits : Bytes := []
  bloomNumBits : ℕ := 0
  bloomNumHashes : ℕ := 0

/-- The read counters a table lookup moves. -/
structure ReadStats where
  bloomsChecked : ℕ := 0
  bloomsNegative : ℕ := 0
  cacheHits : ℕ := 0
  cacheMisses : ℕ := 0
  diskBlockReads : ℕ := 0

structure GetTrace where
  rangeSkipped : ℕ := 0
  bloomsSkipped : ℕ := 0
  blockReads : ℕ := 0
  cacheHits : ℕ := 0

/-- What a lookup works on. -/
structure ReadContext where
  reader : TableReader
  cache : BlockCache
  stats : ReadStats := {}
  trace : GetTrace := {}

namespace TableReader

def readRange (file : Bytes) (off n : ℕ) : Except Fault Bytes :=
  Sst.readRange file off n (corrupt off "short read")

/-- `load_footer`. The offsets are taken over before they are checked. -/
def loadFooter (file : Bytes) (r : TableReader) : TableReader × Except Fault Unit :=
  if file.length < kFooterSize then (r, .error (corrupt 0 "file too small for footer"))
  else match readRange file (file.length - kFooterSize) kFooterSize with
    | .error e => (r, .error e)
    | .ok b =>
      let f := Footer.decode b
      if f.magic ≠ kMagic then
        (r, .error (corrupt (file.length - kFooterSize) "bad footer magic"))
      else if f.version ≠ kVersion then
        (r, .error (corrupt (file.length - kFooterSize) "unsupported version"))
      else
        let r := { r with
          indexOff := f.indexOff, indexSize := f.indexSize
          filterOff := f.filterOff, filterSize := f.filterSize }
        if f.outOfRange file.length (4 + 8 + 4 + 8) then
          (r, .error (corrupt (file.length - kFooterSize) "footer offsets out of range"))
        else ({ r with footerLoaded := true }, .ok ())

/-- `ensure_open`, with the content of the open file. The footer is loaded only when the
file had to be opened. -/
def ensureOpen (r : TableReader) : TableReader × Except Fault Bytes :=
  if r.fileOpen then (r, .ok (r.file.getD []))
  else match r.file with
    | none => (r, .error (.thrown ⟨.ioFailure, "cannot open SSTable"⟩))
    | some file =>
      if r.footerLoaded then ({ r with fileOpen := true }, .ok file)
      else match loadFooter file { r with fileOpen := true } with
        | (r, .error e) => (r, .error e)
        | (r, .ok _) => (r, .ok file)

/-- `validate_footer`. A file that was not open is closed again, so none stays open. -/
def validateFooter (r : TableReader) : TableReader × Except Fault Unit :=
  if r.fileOpen then
    if r.footerLoaded then (r, .ok ()) else loadFooter (r.file.getD []) r
  else match r.file with
    | none => (r, .error (.thrown ⟨.ioFailure, "cannot open SSTable"⟩))
    | some file => if r.footerLoaded then (r, .ok ()) else loadFooter file r

/-- One index entry of `load_index`. -/
def loadIndexStep (base : ℕ) (block : Bytes) (stop : ℕ) (index : List IndexEntry) (pos : ℕ) :
    Except Fault (List IndexEntry × ℕ) :=
  if stop < pos + 4 then .error (corrupt (base + pos) "truncated index entry")
  else do
    let key_len ← demand .outside (readLe block pos 4)
    if stop < pos + 4 + key_len + 12 then
      .error (corrupt (base + (pos + 4)) "truncated index entry")
    else do
      let first_key ← demand .outside (readAt block (pos + 4) key_len)
      let offset ← demand .outside (readLe block (pos + 4 + key_len) 8)
      let size ← demand .outside (readLe block (pos + 4 + key_len + 8) 4)
      .ok (index ++ [⟨first_key, offset, size⟩], pos + 4 + key_len + 12)

def loadIndex (file : Bytes) (r : TableReader) : Except Fault (List IndexEntry) := do
  let block ← readRange file r.indexOff r.indexSize
  if ← crcMatches block r.indexSize then
    walk (loadIndexStep r.indexOff block (r.indexSize - 4)) (r.indexSize - 4) r.indexSize [] 0
  else .error (corrupt r.indexOff "index block checksum mismatch")

/-- The three header fields of the filter block and the block itself, checksum verified. -/
def readFilter (file : Bytes) (r : TableReader) : Except Fault (ℕ × ℕ × Bytes) := do
  let block ← readRange file r.filterOff r.filterSize
  if ← crcMatches block r.filterSize then do
    let num_bits ← demand .outside (readLe block 0 8)
    let num_hashes ← demand .outside (readLe block 8 4)
    .ok (num_bits, num_hashes, block)
  else .error (corrupt r.filterOff "filter block checksum mismatch")

/-- `load_bloom`. The sizes are taken over before they are checked. -/
def loadBloom (file : Bytes) (r : TableReader) : TableReader × Except Fault Unit :=
  match readFilter file r with
  | .error e => (r, .error e)
  | .ok (num_bits, num_hashes, block) =>
    let r := { r with bloomNumBits := num_bits, bloomNumHashes := num_hashes }
    let bit_bytes := (num_bits + 7) % 2 ^ 64 / 8
    if num_bits = 0 ∨ num_hashes = 0 ∨ 20 + bit_bytes + 4 ≠ r.filterSize then
      (r, .error (corrupt r.filterOff "filter block layout invalid"))
    else match readAt block 20 bit_bytes with
      | none => (r, .error .outside)
      | some bits => ({ r with bloomBits := bits }, .ok ())

def bloomMayContain (r : TableReader) (key : Bytes) : Option Bool :=
  Bloom.mayContain r.bloomNumBits r.bloomNumHashes r.bloomBits key

/-! ## Inside a block -/

/-- The key is a `string_view`, whose constructor asks for a valid range, so the whole of it has
to be inside even where a comparison would stop early. -/
def keyAt (block : Bytes) (off : ℕ) : Except Fault Bytes := do
  let klen ← demand .outside (readLe block off 4)
  demand .outside (readAt block (off + kEntryHeader) klen)

/-- The offset of restart point `i`. -/
def restartAt (block : Bytes) (restarts_off i : ℕ) : Except Fault ℕ :=
  demand .outside (readLe block (restarts_off + 4 * i) 4)

/-- The test of the binary search: the key at restart point `mid` is not above `key`. -/
def restartNotAbove (block : Bytes) (restarts_off : ℕ) (key : Bytes) (mid : ℕ) :
    Except Fault Bool := do
  let off ← restartAt block restarts_off mid
  let k ← keyAt block off
  .ok (decide (k ≤ key))

/-- The forward scan from a restart point. -/
def findEntry (base : ℕ) (block : Bytes) (entries_end : ℕ) (key : Bytes) :
    ℕ → ℕ → Except Fault (Option TableHit)
  | 0, _ => .ok none
  | fuel + 1, pos =>
    if pos < entries_end then
      match readEntry base block entries_end pos with
      | .error e => .error e
      | .ok (e, next) =>
        if e.1 = key then .ok (some e.2)
        else if key < e.1 then .ok none
        else findEntry base block entries_end key fuel next
    else .ok none

/-- The in-block search: restart points narrow the scan, then it walks forward. -/
def searchBlock (base : ℕ) (block key : Bytes) : Except Fault (Option TableHit) := do
  let restart_count ← demand .outside (readLe block (block.length - 8) 4)
  if restart_count = 0 ∨ block.length < 8 + 4 * restart_count then
    .error (corrupt base "restart trailer invalid")
  else do
    let restarts_off := block.length - 8 - 4 * restart_count
    let lo ← bisect (restartNotAbove block restarts_off key) restart_count 0 restart_count
    let pos ← restartAt block restarts_off lo
    findEntry base block restarts_off key block.length pos

end TableReader

/-! ## get -/

namespace ReadContext
open TableReader

/-- The block of an index entry, from the cache or else from the file, verified. -/
def fetchBlock (file : Bytes) (e : IndexEntry) (c : ReadContext) :
    ReadContext × Except Fault Bytes :=
  match c.cache.find (c.reader.info.id, e.offset) with
  | (cache, some block) => ({ c with
      cache := cache
      stats := { c.stats with cacheHits := c.stats.cacheHits + 1 }
      trace := { c.trace with cacheHits := c.trace.cacheHits + 1 } }, .ok block)
  | (cache, none) =>
    let c := { c with
      cache := cache
      stats := { c.stats with
        cacheMisses := c.stats.cacheMisses + 1
        diskBlockReads := c.stats.diskBlockReads + 1 }
      trace := { c.trace with blockReads := c.trace.blockReads + 1 } }
    match TableReader.readRange file e.offset e.size with
    | .error err => (c, .error err)
    | .ok raw =>
      if e.size < 12 then (c, .error (corrupt e.offset "data block too small"))
      else match crcMatches raw e.size with
        | .error err => (c, .error err)
        | .ok false => (c, .error (corrupt e.offset "data block checksum mismatch"))
        | .ok true =>
          ({ c with cache := c.cache.insert (c.reader.info.id, e.offset) raw }, .ok raw)

/-- The parsed index, pinned if the configuration says so. -/
def currentIndex (file : Bytes) (r : TableReader) : TableReader × Except Fault (List IndexEntry) :=
  if r.cacheIndexBlocks then
    if r.indexPinned then (r, .ok r.index)
    else match r.loadIndex file with
      | .error e => (r, .error e)
      | .ok index => ({ r with index := index, indexPinned := true }, .ok index)
  else (r, r.loadIndex file)

/-- The last entry whose first key is not above `key`. -/
def lastNotAbove (index : List IndexEntry) (key : Bytes) : Option IndexEntry :=
  match upperBound (fun i => (index[i]?).any (fun e => key < e.firstKey)) index.length with
  | 0 => none
  | i + 1 => index[i]?

/-- Steps 3 to 5 of `get`: index, block, entry. -/
def searchIndex (file key : Bytes) (c : ReadContext) :
    ReadContext × Except Fault (Option TableHit) :=
  match currentIndex file c.reader with
  | (r, .error e) => ({ c with reader := r }, .error e)
  | (r, .ok index) => match lastNotAbove index key with
    | none => ({ c with reader := r }, .ok none)
    | some e => match fetchBlock file e { c with reader := r } with
      | (c, .error err) => (c, .error err)
      | (c, .ok block) => (c, searchBlock e.offset block key)

/-- The filter, loaded on first use. -/
def currentBloom (file : Bytes) (r : TableReader) : TableReader × Except Fault Unit :=
  if r.bloomBits = [] then r.loadBloom file else (r, .ok ())

/-- Step 2 of `get` and what follows it. -/
def searchBloom (file key : Bytes) (c : ReadContext) :
    ReadContext × Except Fault (Option TableHit) :=
  match currentBloom file c.reader with
  | (r, .error e) => ({ c with reader := r }, .error e)
  | (r, .ok _) =>
    let c := { c with
      reader := r
      stats := { c.stats with bloomsChecked := c.stats.bloomsChecked + 1 } }
    match r.bloomMayContain key with
    | none => (c, .error .outside)
    | some false => ({ c with
        stats := { c.stats with bloomsNegative := c.stats.bloomsNegative + 1 }
        trace := { c.trace with bloomsSkipped := c.trace.bloomsSkipped + 1 } }, .ok none)
    | some true => searchIndex file key c

/-- `TableReader::get`. -/
def get (key : Bytes) (c : ReadContext) : ReadContext × Except Fault (Option TableHit) :=
  if key < c.reader.info.minKey ∨ c.reader.info.maxKey < key then
    ({ c with trace := { c.trace with rangeSkipped := c.trace.rangeSkipped + 1 } }, .ok none)
  else match c.reader.ensureOpen with
    | (r, .error e) => ({ c with reader := r }, .error e)
    | (r, .ok file) => searchBloom file key { c with reader := r }

end ReadContext
end Sst
end LsmKv
