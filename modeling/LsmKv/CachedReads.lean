import LsmKv.FooterChecks
import LsmKv.SstDamage

/-!
# Lookups with and without caches

A lookup as a function of the table's file alone, and what a reader and the block cache must
hold for a lookup through them to be that function. The file is one `write_sstable` wrote, with
whatever settings; nothing else is asked of its blocks.
-/

namespace LsmKv
namespace Sst
open TableReader

/-! ## A lookup as a function of the file -/

/-- A reader that has taken over the offsets of the footer, and nothing else. -/
def footed (file : Bytes) : TableReader := withFooter (footerOf file) unopened

/-- The index as `load_index` parses it. -/
def indexEntries (file : Bytes) : Except Fault (List IndexEntry) := (footed file).loadIndex file

/-- The block of an index entry, read from the file and checked. -/
def storedBlock (file : Bytes) (x : IndexEntry) : Except Fault Bytes :=
  match TableReader.readRange file x.offset x.size with
  | .error e => .error e
  | .ok raw =>
    if x.size < 12 then .error (corrupt x.offset "data block too small")
    else match crcMatches raw x.size with
      | .error e => .error e
      | .ok false => .error (corrupt x.offset "data block checksum mismatch")
      | .ok true => .ok raw

/-- What the filter says, loaded from the file. -/
def filterAnswer (file key : Bytes) : Except Fault Bool := do
  ((footed file).loadBloom file).2
  demand .outside (((footed file).loadBloom file).1.bloomMayContain key)

/-- Index, block and entry, each from the file. -/
def indexAnswer (file key : Bytes) : Except Fault (Option TableHit) := do
  let index ← indexEntries file
  match ReadContext.lastNotAbove index key with
  | none => .ok none
  | some x => do
    let block ← storedBlock file x
    searchBlock x.offset block key

/-- A lookup with every part read from the file. -/
def tableAnswer (file : Bytes) (info : TableMeta) (key : Bytes) : Except Fault (Option TableHit) :=
  if key < info.minKey ∨ info.maxKey < key then .ok none
  else do
    let may ← filterAnswer file key
    if may then indexAnswer file key else .ok none

/-- A block that the file's index places at an offset. -/
def BlockAt (file : Bytes) (off : ℕ) (block : Bytes) : Prop :=
  ∃ index, indexEntries file = .ok index ∧ ∃ x ∈ index, x.offset = off ∧
    storedBlock file x = .ok block

/-- A file whose footer passes its checks and whose index gives no offset twice. -/
structure Sectioned (file : Bytes) : Prop where
  passes : Passes file
  offsets : ∀ index, indexEntries file = .ok index →
    ∀ x ∈ index, ∀ y ∈ index, x.offset = y.offset → x = y

/-! ## A reader and a cache that agree with the file -/

/-- The offsets of the footer are taken over. -/
structure AtFooter (file : Bytes) (r : TableReader) : Prop where
  indexOff : r.indexOff = (footerOf file).indexOff
  indexSize : r.indexSize = (footerOf file).indexSize
  filterOff : r.filterOff = (footerOf file).filterOff
  filterSize : r.filterSize = (footerOf file).filterSize

/-- What a reader has loaded is what the file says. -/
structure Mirrors (file : Bytes) (info : TableMeta) (r : TableReader) : Prop where
  content : r.file = some file
  table : r.info = info
  closed : r.footerLoaded = true ∨ r.fileOpen = false
  footer : r.footerLoaded = true → AtFooter file r
  bloom : r.bloomBits ≠ [] → ∃ r₀, (footed file).loadBloom file = (r₀, .ok ()) ∧
    r.bloomNumBits = r₀.bloomNumBits ∧ r.bloomNumHashes = r₀.bloomNumHashes ∧
    r.bloomBits = r₀.bloomBits
  pinned : r.indexPinned = true → indexEntries file = .ok r.index

/-- The cached blocks of a table are those of its file. -/
def Caches (file : Bytes) (id : ℕ) (cache : BlockCache) : Prop :=
  ∀ n ∈ cache.lru, n.1.1 = id → BlockAt file n.1.2 n.2

/-- A cache gains no blocks but those of a table's file. -/
def Gains (file : Bytes) (id : ℕ) (cache cache' : BlockCache) : Prop :=
  ∀ n ∈ cache'.lru, n ∈ cache.lru ∨ (n.1.1 = id ∧ BlockAt file n.1.2 n.2)

theorem Gains.refl (file : Bytes) (id : ℕ) (cache : BlockCache) : Gains file id cache cache :=
  fun _ hn => .inl hn

theorem mirrors_created (file : Bytes) (info : TableMeta) (cache_index_blocks : Bool) :
    Mirrors file info (created file info cache_index_blocks) :=
  ⟨rfl, rfl, .inr rfl, nofun, fun h => absurd rfl h, nofun⟩

section
variable {file : Bytes} {info : TableMeta} {r : TableReader}

/-- Only the offsets of the footer enter the index. -/
theorem AtFooter.loadIndex (h : AtFooter file r) : r.loadIndex file = indexEntries file := by
  rw [TableReader.loadIndex, h.indexOff, h.indexSize]
  rfl

/-- Only the offsets of the footer enter the filter: two readers load it alike. -/
theorem AtFooter.loadBloom (h : AtFooter file r) :
    (∃ e num_bits num_hashes r₀,
      r.loadBloom file =
        ({ r with bloomNumBits := num_bits, bloomNumHashes := num_hashes }, .error e) ∧
      (footed file).loadBloom file = (r₀, .error e)) ∨
    ∃ num_bits num_hashes bits,
      r.loadBloom file = ({ r with
        bloomNumBits := num_bits, bloomNumHashes := num_hashes, bloomBits := bits }, .ok ()) ∧
      (footed file).loadBloom file = ({ footed file with
        bloomNumBits := num_bits, bloomNumHashes := num_hashes, bloomBits := bits }, .ok ()) := by
  have hread : r.readFilter file = (footed file).readFilter file := by
    rw [readFilter, h.filterOff, h.filterSize]
    rfl
  have hoff : r.filterOff = (footed file).filterOff := h.filterOff
  have hsize : r.filterSize = (footed file).filterSize := h.filterSize
  rw [TableReader.loadBloom, TableReader.loadBloom, hread]
  rcases (footed file).readFilter file with e | ⟨num_bits, num_hashes, block⟩
  · exact .inl ⟨e, r.bloomNumBits, r.bloomNumHashes, _, rfl, rfl⟩
  dsimp only
  rw [hoff, hsize]
  split
  · exact .inl ⟨_, _, _, _, rfl, rfl⟩
  · rcases readAt block 20 ((num_bits + 7) % 2 ^ 64 / 8) with _ | bits
    · exact .inl ⟨_, _, _, _, rfl, rfl⟩
    · exact .inr ⟨num_bits, num_hashes, bits, rfl, rfl⟩

theorem mirrors_validated (hf : Sectioned file) {cache_index_blocks : Bool}
    (h : (created file info cache_index_blocks).validateFooter = (r, .ok ())) :
    Mirrors file info r ∧ r.fileOpen = false := by
  have hload : (created file info cache_index_blocks).validateFooter =
      (created file info cache_index_blocks).loadFooter file := rfl
  rw [hload, loadFooter_of_passes hf.passes] at h
  obtain ⟨rfl, -⟩ := Prod.mk.inj h
  exact ⟨⟨rfl, rfl, .inr rfl, fun _ => ⟨rfl, rfl, rfl, rfl⟩, fun hne => absurd rfl hne, nofun⟩, rfl⟩

/-- The block stands in the file byte for byte. -/
theorem BlockAt.hasAt {off : ℕ} {block : Bytes} (h : BlockAt file off block) :
    HasAt file off block := by
  obtain ⟨index, -, x, -, rfl, hstored⟩ := h
  rw [storedBlock] at hstored
  rcases hread : TableReader.readRange file x.offset x.size with e | raw
  · rw [hread] at hstored
    cases hstored
  rw [hread] at hstored
  dsimp only at hstored
  split at hstored
  · cases hstored
  split at hstored
  · cases hstored
  · cases hstored
  obtain rfl := Except.ok.inj hstored
  obtain ⟨-, hzero | ⟨hle, hraw⟩⟩ := readRange_eq_ok hread
  · omega
  · refine ⟨file.take x.offset, file.drop (x.offset + x.size), ?_, ?_⟩
    · rw [hraw, ← List.drop_drop, List.take_append_drop, List.take_append_drop]
    · rw [List.length_take]
      omega

/-! ## What each part of a lookup gives, and what it leaves -/

theorem Mirrors.ensureOpen (h : Mirrors file info r) (hf : Sectioned file) :
    r.ensureOpen.2 = .ok file ∧ Mirrors file info r.ensureOpen.1 ∧
      r.ensureOpen.1.footerLoaded = true := by
  rw [TableReader.ensureOpen, h.content]
  split
  · rename_i hopen
    refine ⟨rfl, h, h.closed.resolve_right ?_⟩
    simp [hopen]
  dsimp only
  split
  · rename_i hloaded
    exact ⟨rfl, ⟨rfl, h.table, .inl hloaded, fun _ =>
      ⟨(h.footer hloaded).indexOff, (h.footer hloaded).indexSize, (h.footer hloaded).filterOff,
        (h.footer hloaded).filterSize⟩, h.bloom, h.pinned⟩, hloaded⟩
  · rw [loadFooter_of_passes hf.passes]
    exact ⟨rfl, ⟨rfl, h.table, .inl rfl, fun _ => ⟨rfl, rfl, rfl, rfl⟩, h.bloom, h.pinned⟩, rfl⟩

/-- What the filter says, over a filter that may be loaded already. -/
theorem Mirrors.currentBloom (h : Mirrors file info r) (hloaded : r.footerLoaded = true)
    (key : Bytes) :
    ((ReadContext.currentBloom file r).2 >>= fun _ =>
      demand .outside ((ReadContext.currentBloom file r).1.bloomMayContain key)) =
        filterAnswer file key ∧
    Mirrors file info (ReadContext.currentBloom file r).1 ∧
    (ReadContext.currentBloom file r).1.footerLoaded = true := by
  have hfooter := h.footer hloaded
  rw [ReadContext.currentBloom, filterAnswer]
  by_cases hempty : r.bloomBits = []
  · rw [if_pos hempty]
    rcases hfooter.loadBloom with ⟨e, num_bits, num_hashes, r₀, hload, hload₀⟩ |
      ⟨num_bits, num_hashes, bits, hload, hload₀⟩
    · rw [hload, hload₀]
      exact ⟨rfl, ⟨h.content, h.table, h.closed, fun _ => ⟨hfooter.indexOff, hfooter.indexSize,
        hfooter.filterOff, hfooter.filterSize⟩, fun hne => absurd hempty hne, h.pinned⟩, hloaded⟩
    · rw [hload, hload₀]
      refine ⟨?_, ⟨h.content, h.table, h.closed, fun _ => ⟨hfooter.indexOff, hfooter.indexSize,
        hfooter.filterOff, hfooter.filterSize⟩, fun _ => ⟨_, hload₀, rfl, rfl, rfl⟩, h.pinned⟩,
        hloaded⟩
      rw [ok_bind, ok_bind, bloomMayContain, bloomMayContain]
  · rw [if_neg hempty]
    obtain ⟨r₀, hload₀, hbits, hhashes, hbloom⟩ := h.bloom hempty
    rw [hload₀]
    refine ⟨?_, h, hloaded⟩
    rw [ok_bind, ok_bind, bloomMayContain, bloomMayContain, hbits, hhashes, hbloom]

theorem Mirrors.currentIndex (h : Mirrors file info r) (hloaded : r.footerLoaded = true) :
    (ReadContext.currentIndex file r).2 = indexEntries file ∧
      Mirrors file info (ReadContext.currentIndex file r).1 := by
  have hfooter := h.footer hloaded
  rw [ReadContext.currentIndex, hfooter.loadIndex]
  split
  · split
    · rename_i hpinned
      exact ⟨(h.pinned hpinned).symm, h⟩
    · rcases hentries : indexEntries file with e | index
      · exact ⟨rfl, h⟩
      · exact ⟨rfl, ⟨h.content, h.table, h.closed, fun _ => ⟨hfooter.indexOff, hfooter.indexSize,
          hfooter.filterOff, hfooter.filterSize⟩, h.bloom, fun _ => hentries⟩⟩
  · exact ⟨rfl, h⟩

/-- A block that is not cached is read from the file and kept. -/
theorem fetchBlock_miss {c : ReadContext} {x : IndexEntry} {cache : BlockCache}
    (hfind : c.cache.find (c.reader.info.id, x.offset) = (cache, none)) :
    (ReadContext.fetchBlock file x c).2 = storedBlock file x ∧
      ((ReadContext.fetchBlock file x c).1.cache = cache ∨
        ∃ raw, storedBlock file x = .ok raw ∧ (ReadContext.fetchBlock file x c).1.cache =
          cache.insert (c.reader.info.id, x.offset) raw) := by
  unfold ReadContext.fetchBlock storedBlock
  rw [hfind]
  dsimp only
  rcases TableReader.readRange file x.offset x.size with e | raw
  · exact ⟨rfl, .inl rfl⟩
  dsimp only
  by_cases hsmall : x.size < 12
  · rw [if_pos hsmall, if_pos hsmall]
    exact ⟨rfl, .inl rfl⟩
  rw [if_neg hsmall, if_neg hsmall]
  rcases crcMatches raw x.size with e | _ | _
  · exact ⟨rfl, .inl rfl⟩
  · exact ⟨rfl, .inl rfl⟩
  · exact ⟨rfl, .inr ⟨raw, rfl, rfl⟩⟩

/-- A block is the one in the file, also where it comes from the cache. -/
theorem fetchBlock_caches (hf : Sectioned file) {c : ReadContext} {x : IndexEntry}
    {index : List IndexEntry} (hindex : indexEntries file = .ok index) (hx : x ∈ index)
    (hc : Caches file c.reader.info.id c.cache) :
    (ReadContext.fetchBlock file x c).2 = storedBlock file x ∧
      Gains file c.reader.info.id c.cache (ReadContext.fetchBlock file x c).1.cache := by
  have hkept : ∀ n ∈ (c.cache.find (c.reader.info.id, x.offset)).1.lru, n ∈ c.cache.lru :=
    fun n hn => mem_lru_find hn
  rcases hfind : c.cache.find (c.reader.info.id, x.offset) with ⟨cache, _ | block⟩
  · rw [hfind] at hkept
    obtain ⟨hresult, hcache | ⟨raw, hraw, hcache⟩⟩ := @fetchBlock_miss file c x cache hfind
    · exact ⟨hresult, fun n hn => .inl (hkept n (hcache ▸ hn))⟩
    · refine ⟨hresult, fun n hn => ?_⟩
      rw [hcache] at hn
      rcases mem_lru_insert hn with rfl | hn
      · exact .inr ⟨rfl, index, hindex, x, hx, rfl, hraw⟩
      · exact .inl (hkept n hn)
  · obtain ⟨index', hindex', y, hy, hoff, hstored⟩ :=
      hc _ (find_some (congrArg Prod.snd hfind)) rfl
    obtain rfl := Except.ok.inj (hindex.symm.trans hindex')
    obtain rfl := hf.offsets index hindex y hy x hx hoff
    rw [hfind] at hkept
    unfold ReadContext.fetchBlock
    rw [hfind]
    exact ⟨hstored.symm, fun n hn => .inl (hkept n hn)⟩

/-! ## The lookup -/

/-- A lookup gives `result`, its reader goes on agreeing with the file, and its cache gains
blocks of the file only. -/
structure Answers (file : Bytes) (info : TableMeta) (cache : BlockCache)
    (result : Except Fault (Option TableHit))
    (out : ReadContext × Except Fault (Option TableHit)) : Prop where
  result : out.2 = result
  reader : Mirrors file info out.1.reader
  cache : Gains file info.id cache out.1.cache

variable {c : ReadContext}

theorem answers_searchIndex (hf : Sectioned file) (hr : Mirrors file info c.reader)
    (hloaded : c.reader.footerLoaded = true) (hc : Caches file info.id c.cache) (key : Bytes) :
    Answers file info c.cache (indexAnswer file key) (ReadContext.searchIndex file key c) := by
  obtain ⟨hindex, hready⟩ := hr.currentIndex hloaded
  rw [ReadContext.searchIndex, indexAnswer]
  rcases hcur : ReadContext.currentIndex file c.reader with ⟨r', e | index⟩
  · rw [hcur] at hindex hready
    rw [← hindex]
    exact ⟨rfl, hready, .refl _ _ _⟩
  rw [hcur] at hindex hready
  rw [← hindex, ok_bind]
  dsimp only
  rcases hx : ReadContext.lastNotAbove index key with _ | x
  · exact ⟨rfl, hready, .refl _ _ _⟩
  have hcaches : Caches file r'.info.id c.cache := hready.table.symm ▸ hc
  obtain ⟨hblock, hgains⟩ := @fetchBlock_caches file hf { c with reader := r' } x index hindex.symm
    (mem_of_lastNotAbove hx) hcaches
  have hreader := fetchBlock_reader file x { c with reader := r' }
  dsimp only
  rw [← hblock]
  rcases hfetch : ReadContext.fetchBlock file x { c with reader := r' } with ⟨c', e | block⟩
  · rw [hfetch] at hreader hgains
    exact ⟨rfl, hreader ▸ hready, hready.table ▸ hgains⟩
  · rw [hfetch] at hreader hgains
    exact ⟨rfl, hreader ▸ hready, hready.table ▸ hgains⟩

theorem answers_searchBloom (hf : Sectioned file) (hr : Mirrors file info c.reader)
    (hloaded : c.reader.footerLoaded = true) (hc : Caches file info.id c.cache) (key : Bytes) :
    Answers file info c.cache
      (filterAnswer file key >>= fun may => if may then indexAnswer file key else .ok none)
      (ReadContext.searchBloom file key c) := by
  obtain ⟨hanswer, hready, hloaded'⟩ := hr.currentBloom hloaded key
  rw [ReadContext.searchBloom, ← hanswer]
  rcases hcur : ReadContext.currentBloom file c.reader with ⟨r', e | u⟩
  · rw [hcur] at hready
    exact ⟨rfl, hready, .refl _ _ _⟩
  rw [hcur] at hready hloaded'
  rw [ok_bind]
  dsimp only
  rcases r'.bloomMayContain key with _ | _ | _
  · exact ⟨rfl, hready, .refl _ _ _⟩
  · exact ⟨rfl, hready, .refl _ _ _⟩
  · exact answers_searchIndex (c := { c with reader := r', stats := _ }) hf hready hloaded' hc key

/-- A lookup through a reader and a cache that agree with the file is the lookup in the file. -/
theorem answers_get (hf : Sectioned file) (hr : Mirrors file info c.reader)
    (hc : Caches file info.id c.cache) (key : Bytes) :
    Answers file info c.cache (tableAnswer file info key) (ReadContext.get key c) := by
  rw [ReadContext.get, tableAnswer, hr.table]
  split
  · exact ⟨rfl, hr, .refl _ _ _⟩
  obtain ⟨hopen, hready, hloaded⟩ := hr.ensureOpen hf
  rcases hens : c.reader.ensureOpen with ⟨r', e | file'⟩
  · rw [hens] at hopen
    cases hopen
  rw [hens] at hopen hready hloaded
  obtain rfl := Except.ok.inj hopen
  exact answers_searchBloom (c := { c with reader := r' }) hf hready hloaded hc key

end

/-- A lookup with no block cached and nothing of the table loaded or pinned. -/
def plainGet (file : Option Bytes) (info : TableMeta) (key : Bytes) :
    Except Fault (Option TableHit) :=
  (ReadContext.get key ⟨{ file := file, info := info, cacheIndexBlocks := false },
    { capacity := 0 }, {}, {}⟩).2

theorem plainGet_eq {file : Bytes} (hf : Sectioned file) (info : TableMeta) (key : Bytes) :
    plainGet (some file) info key = tableAnswer file info key :=
  (answers_get (c := ⟨created file info false, { capacity := 0 }, {}, {}⟩) hf
    (mirrors_created file info false) (fun _ hn => nomatch hn) key).result

/-! ## The files of the writer -/

section
variable {cfg : SstConfig} {file bits : Bytes} {groups : List (List Entry)} {num_keys : ℕ}

theorem Laid.passes (h : Laid cfg file groups num_keys bits) : Passes file := by
  have hsize := h.size
  refine ⟨not_lt.mp h.footer_le, by omega, ?_, ?_, ?_⟩
  · rw [h.footerOf]
    rfl
  · rw [h.footerOf]
    rfl
  · rw [h.footerOf]
    exact h.not_outOfRange le_rfl

theorem Laid.indexEntries (h : Laid cfg file groups num_keys bits) :
    Sst.indexEntries file = .ok (indexFrom cfg.restartInterval 0 groups) := by
  have hwalk := h.walk_index (fun s pos p _ hat =>
    loadIndexStep_of_indexAt (tableFooter cfg groups num_keys bits).indexOff hat s) []
  rw [foldl_snoc, List.nil_append] at hwalk
  have hcrc : crcMatches (tableIndex cfg groups)
      (tableFooter cfg groups num_keys bits).indexSize = .ok true := crcMatches_withCrc _
  have hoff : (footed file).indexOff = (tableFooter cfg groups num_keys bits).indexOff := by
    rw [← h.footerOf]
    rfl
  have hsize : (footed file).indexSize = (tableFooter cfg groups num_keys bits).indexSize := by
    rw [← h.footerOf]
    rfl
  rw [Sst.indexEntries, TableReader.loadIndex, hsize, TableReader.readRange, hoff, h.read_index,
    ok_bind, hcrc]
  exact hwalk

theorem Laid.sectioned (h : Laid cfg file groups num_keys bits) : Sectioned file := by
  refine ⟨h.passes, fun index hindex x hx y hy hoff => ?_⟩
  obtain rfl := Except.ok.inj (h.indexEntries.symm.trans hindex)
  obtain ⟨p, hp, rfl⟩ := List.mem_map.mp hx
  obtain ⟨q, hq, rfl⟩ := List.mem_map.mp hy
  rw [placed_inj hp hq hoff]

end

/-- A file `write_sstable` wrote: keys are no longer than a frame of the log can hold, and no
file is longer than an offset can say. -/
def Written (file : Bytes) : Prop :=
  ∃ cfg mem, (∀ e ∈ mem.map.entries, e.1.length < 2 ^ 32) ∧ file = tableBytes cfg mem ∧
    file.length < 2 ^ 63

theorem Written.sectioned {file : Bytes} (h : Written file) : Sectioned file := by
  obtain ⟨cfg, mem, hkeys, rfl, hsize⟩ := h
  obtain ⟨groups, hlaid, -⟩ := exists_laid hkeys hsize
  exact hlaid.sectioned

end Sst
end LsmKv
