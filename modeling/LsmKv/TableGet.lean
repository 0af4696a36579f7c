import LsmKv.TableLookup

/-!
# A reader answers as the memtable did

What a reader has loaded and what the cache holds for its table agree with the file; every
lookup keeps this and returns what the memtable would have, over any sequence of lookups with
any cache and either index setting.
-/

namespace LsmKv
namespace Sst
open OrderedMap

/-- The parts a reader has loaded are those of the table. -/
structure Ready (cfg : SstConfig) (file : Bytes) (groups : List (List Entry)) (num_keys : ℕ)
    (bits : Bytes) (r : TableReader) : Prop where
  file : r.file = some file
  closed : r.footerLoaded = true ∨ r.fileOpen = false
  indexOff : r.footerLoaded = true → r.indexOff = (tableFooter cfg groups num_keys bits).indexOff
  indexSize : r.footerLoaded = true →
    r.indexSize = (tableFooter cfg groups num_keys bits).indexSize
  filterOff : r.footerLoaded = true →
    r.filterOff = (tableFooter cfg groups num_keys bits).filterOff
  filterSize : r.footerLoaded = true →
    r.filterSize = (tableFooter cfg groups num_keys bits).filterSize
  bloom : r.bloomBits = [] ∨ (r.bloomBits = bits ∧ r.bloomNumBits = cfg.numBits ∧
    r.bloomNumHashes = cfg.numHashes)
  index : r.indexPinned = true → r.index = indexFrom cfg.restartInterval 0 groups

/-- A cached block of the table is the block at its offset. -/
def CacheHolds (ri : ℕ) (groups : List (List Entry)) (id : ℕ) (c : BlockCache) : Prop :=
  ∀ n ∈ c.lru, ∀ p ∈ placed ri 0 groups, n.1 = (id, p.1) → n.2 = groupBytes ri p.2

section
variable {cfg : SstConfig} {file bits : Bytes} {groups : List (List Entry)} {num_keys : ℕ}

/-! ## The cache -/

theorem mem_lru_find {key : ℕ × ℕ} {c : BlockCache} {n} (h : n ∈ (c.find key).1.lru) :
    n ∈ c.lru := by
  unfold BlockCache.find at h
  split at h
  · split at h
    · exact h
    · rename_i found hfound
      rcases List.mem_cons.mp h with rfl | h
      · exact List.mem_of_find?_eq_some hfound
      · exact List.mem_of_mem_eraseP h
  · exact h

theorem find_some {key : ℕ × ℕ} {c : BlockCache} {block : Bytes}
    (h : (c.find key).2 = some block) : (key, block) ∈ c.lru := by
  unfold BlockCache.find at h
  split at h
  · split at h
    · cases h
    · rename_i found hfound
      obtain rfl := Option.some.inj h
      have hkey : found.1 = key := by simpa using List.find?_some hfound
      rw [← hkey]
      exact List.mem_of_find?_eq_some hfound
  · cases h

theorem mem_lru_evict {fuel : ℕ} {c : BlockCache} {n} (h : n ∈ (c.evict fuel).lru) :
    n ∈ c.lru := by
  induction fuel generalizing c with
  | zero => exact h
  | succ fuel ih =>
    rw [BlockCache.evict] at h
    split at h
    · split at h
      · exact h
      · exact List.dropLast_subset _ (ih h)
    · exact h

theorem mem_lru_insert {key : ℕ × ℕ} {block : Bytes} {c : BlockCache} {n}
    (h : n ∈ (c.insert key block).lru) : n = (key, block) ∨ n ∈ c.lru := by
  unfold BlockCache.insert at h
  split at h
  · exact .inr h
  · exact List.mem_cons.mp (mem_lru_evict h)

/-- Blocks have offsets of their own. -/
theorem placed_inj {ri off : ℕ} {p q : ℕ × List Entry} (hp : p ∈ placed ri off groups)
    (hq : q ∈ placed ri off groups) (hpq : p.1 = q.1) : p = q := by
  have hpairs : ∀ off, (placed ri off groups).Pairwise (fun a b => a.1 < b.1) ∧
      ∀ a ∈ placed ri off groups, off ≤ a.1 := by
    intro off
    clear hp hq
    induction groups generalizing off with
    | nil => exact ⟨.nil, by simp [placed]⟩
    | cons g gs ih =>
      obtain ⟨hpair, hle⟩ := ih (off + (groupBytes ri g).length)
      have hlen := length_groupBytes ri g
      refine ⟨List.pairwise_cons.mpr ⟨fun a ha => ?_, hpair⟩, fun a ha => ?_⟩
      · have := hle a ha
        show off < a.1
        omega
      · rcases List.mem_cons.mp ha with rfl | ha
        · exact le_rfl
        · exact (Nat.le_add_right _ _).trans (hle a ha)
  have hnodup : ((placed ri off groups).map Prod.fst).Nodup :=
    List.pairwise_map.mpr ((hpairs off).1.imp (fun h => h.ne))
  exact List.inj_on_of_nodup_map hnodup hp hq hpq

theorem CacheHolds.find {ri id : ℕ} {c : BlockCache} (h : CacheHolds ri groups id c)
    (key : ℕ × ℕ) : CacheHolds ri groups id (c.find key).1 :=
  fun n hn => h n (mem_lru_find hn)

theorem CacheHolds.insert {ri id : ℕ} {c : BlockCache} (h : CacheHolds ri groups id c)
    {p : ℕ × List Entry} (hp : p ∈ placed ri 0 groups) :
    CacheHolds ri groups id (c.insert (id, p.1) (groupBytes ri p.2)) := by
  intro n hn q hq hkey
  rcases mem_lru_insert hn with rfl | hn
  · rw [placed_inj hp hq (Prod.mk.inj hkey).2]
  · exact h n hn q hq hkey

/-! ## Loading -/

theorem Table.loadFooter (h : Table cfg file groups num_keys bits) (r : TableReader) :
    r.loadFooter file = ({ r with
      indexOff := (tableFooter cfg groups num_keys bits).indexOff
      indexSize := (tableFooter cfg groups num_keys bits).indexSize
      filterOff := (tableFooter cfg groups num_keys bits).filterOff
      filterSize := (tableFooter cfg groups num_keys bits).filterSize
      footerLoaded := true }, .ok ()) := by
  rw [TableReader.loadFooter, if_neg h.laid.footer_le, TableReader.readRange,
    readRange_of_hasAt h.laid.hasAt_footer (length_encode_footer _).symm h.size]
  simp only [h.laid.decode_footer, h.laid.not_outOfRange (by omega : 4 + 8 + 4 + 8 ≤ 24)]
  rfl

theorem Ready.ensureOpen (h : Table cfg file groups num_keys bits) {r : TableReader}
    (hr : Ready cfg file groups num_keys bits r) :
    ∃ r', r.ensureOpen = (r', .ok file) ∧ Ready cfg file groups num_keys bits r' ∧
      r'.footerLoaded = true ∧ r'.info = r.info := by
  rw [TableReader.ensureOpen]
  split
  · rename_i hopen
    rw [hr.file]
    refine ⟨r, rfl, hr, ?_, rfl⟩
    rcases hr.closed with hloaded | hclosed
    · exact hloaded
    · rw [hopen] at hclosed
      cases hclosed
  · rw [hr.file]
    dsimp only
    split
    · rename_i hloaded
      exact ⟨_, rfl, ⟨rfl, .inl hloaded, hr.indexOff, hr.indexSize, hr.filterOff,
        hr.filterSize, hr.bloom, hr.index⟩, hloaded, rfl⟩
    · rw [h.loadFooter]
      exact ⟨_, rfl, ⟨rfl, .inl rfl, fun _ => rfl, fun _ => rfl, fun _ => rfl, fun _ => rfl,
        hr.bloom, hr.index⟩, rfl, rfl⟩

theorem foldl_snoc {α β : Type} (f : α → β) (xs : List α) (ys : List β) :
    xs.foldl (fun ys x => ys ++ [f x]) ys = ys ++ xs.map f := by
  induction xs generalizing ys with
  | nil => exact (List.append_nil _).symm
  | cons x xs ih => rw [List.foldl_cons, ih, List.map_cons, List.append_assoc]; rfl

theorem loadIndexStep_of_indexAt {block : Bytes} {stop pos : ℕ} {x : IndexEntry} (base : ℕ)
    (h : IndexAt block stop pos x) (index : List IndexEntry) :
    TableReader.loadIndexStep base block stop index pos =
      .ok (index ++ [x], pos + indexEntryLen x) := by
  have hwithin := h.within
  rw [indexEntryLen] at hwithin
  rw [TableReader.loadIndexStep, if_neg (by omega), h.keyLen, demand_some, ok_bind,
    if_neg (by omega), h.key, demand_some, ok_bind, h.offset, demand_some, ok_bind, h.blockSize,
    demand_some, ok_bind, indexEntryLen]
  simp only [Nat.add_assoc]

theorem Ready.loadIndex (h : Table cfg file groups num_keys bits) {r : TableReader}
    (hr : Ready cfg file groups num_keys bits r) (hloaded : r.footerLoaded = true) :
    r.loadIndex file = .ok (indexFrom cfg.restartInterval 0 groups) := by
  have hwalk := h.laid.walk_index (fun s pos p _ hat =>
    loadIndexStep_of_indexAt r.indexOff hat s) []
  rw [foldl_snoc, List.nil_append] at hwalk
  have hcrc : crcMatches (tableIndex cfg groups)
      (tableFooter cfg groups num_keys bits).indexSize = .ok true := crcMatches_withCrc _
  have hoff := hr.indexOff hloaded
  have hsize := hr.indexSize hloaded
  rw [TableReader.loadIndex, hsize, TableReader.readRange, hoff, h.laid.read_index, ok_bind, hcrc]
  rw [hoff] at hwalk
  exact hwalk

theorem Ready.currentIndex (h : Table cfg file groups num_keys bits) {r : TableReader}
    (hr : Ready cfg file groups num_keys bits r) (hloaded : r.footerLoaded = true) :
    ∃ r', ReadContext.currentIndex file r =
        (r', .ok (indexFrom cfg.restartInterval 0 groups)) ∧
      Ready cfg file groups num_keys bits r' ∧ r'.info = r.info := by
  rw [ReadContext.currentIndex, hr.loadIndex h hloaded]
  split
  · split
    · rename_i hpinned
      rw [hr.index hpinned]
      exact ⟨r, rfl, hr, rfl⟩
    · exact ⟨_, rfl, ⟨hr.file, hr.closed, hr.indexOff, hr.indexSize, hr.filterOff, hr.filterSize,
        hr.bloom, fun _ => rfl⟩, rfl⟩
  · exact ⟨r, rfl, hr, rfl⟩

/-- What the filter of a table is. -/
structure FilterFits (cfg : SstConfig) (groups : List (List Entry)) (bits : Bytes) : Prop where
  numBits : 64 ≤ cfg.numBits ∧ cfg.numBits ≤ 2 ^ 62
  numHashes : 1 ≤ cfg.numHashes
  bits : bits = (groups.flatten.map Prod.fst).foldl (Bloom.add cfg.numBits cfg.numHashes)
    (Bloom.clear cfg.numBits)

theorem FilterFits.length_bits (h : FilterFits cfg groups bits) :
    bits.length = (cfg.numBits + 7) / 8 := by
  rw [h.bits, Bloom.length_foldl_add, Bloom.clear, List.length_replicate]

theorem Ready.readFilter (h : Table cfg file groups num_keys bits) {r : TableReader}
    (hr : Ready cfg file groups num_keys bits r) (hloaded : r.footerLoaded = true) :
    r.readFilter file = .ok (cfg.numBits, cfg.numHashes, filterBlock cfg num_keys bits) := by
  obtain ⟨hbits, hhashes, -, -⟩ := h.filter_fields
  have hcrc : crcMatches (filterBlock cfg num_keys bits)
      (tableFooter cfg groups num_keys bits).filterSize = .ok true := crcMatches_withCrc _
  rw [TableReader.readFilter, hr.filterSize hloaded, TableReader.readRange, hr.filterOff hloaded,
    h.read_filter, ok_bind, hcrc, ok_bind, if_pos rfl, hbits, hhashes]
  rfl

theorem Ready.currentBloom (h : Table cfg file groups num_keys bits)
    (hf : FilterFits cfg groups bits) {r : TableReader}
    (hr : Ready cfg file groups num_keys bits r) (hloaded : r.footerLoaded = true) :
    ∃ r', ReadContext.currentBloom file r = (r', .ok ()) ∧
      Ready cfg file groups num_keys bits r' ∧ r'.footerLoaded = true ∧ r'.info = r.info ∧
      r'.bloomBits = bits ∧ r'.bloomNumBits = cfg.numBits ∧ r'.bloomNumHashes = cfg.numHashes := by
  have hlen := hf.length_bits
  have hnum := hf.numBits
  have hhashes := hf.numHashes
  rw [ReadContext.currentBloom]
  split
  · have hbytes : (cfg.numBits + 7) % 2 ^ 64 / 8 = bits.length := by
      rw [Nat.mod_eq_of_lt (by omega), hlen]
    have hsize : (tableFooter cfg groups num_keys bits).filterSize = 24 + bits.length :=
      length_filterBlock cfg num_keys bits
    have hvalid : ¬(cfg.numBits = 0 ∨ cfg.numHashes = 0 ∨
        20 + bits.length + 4 ≠ r.filterSize) := by
      rw [hr.filterSize hloaded, hsize]
      omega
    rw [TableReader.loadBloom, hr.readFilter h hloaded]
    simp only [hbytes, if_neg hvalid, h.filter_fields.2.2.2.readAt rfl]
    exact ⟨_, rfl, ⟨hr.file, hr.closed, hr.indexOff, hr.indexSize, hr.filterOff, hr.filterSize,
      .inr ⟨rfl, rfl, rfl⟩, hr.index⟩, hloaded, rfl, rfl, rfl, rfl⟩
  · rename_i hne
    obtain ⟨hb, hn, hk⟩ := hr.bloom.resolve_left hne
    exact ⟨r, rfl, hr, hloaded, rfl, hb, hn, hk⟩

/-! ## The lookup -/

/-- A context whose reader and cache agree with the table. -/
structure Agrees (cfg : SstConfig) (file : Bytes) (groups : List (List Entry)) (num_keys : ℕ)
    (bits : Bytes) (info : TableMeta) (c : ReadContext) : Prop where
  reader : Ready cfg file groups num_keys bits c.reader
  same : c.reader.info = info
  cache : CacheHolds cfg.restartInterval groups info.id c.cache

variable {info : TableMeta} {c : ReadContext}

theorem Agrees.fetchBlock (h : Table cfg file groups num_keys bits)
    (hc : Agrees cfg file groups num_keys bits info c) {p : ℕ × List Entry}
    (hp : p ∈ placed cfg.restartInterval 0 groups) :
    ∃ c', c.fetchBlock file (indexEntryOf cfg.restartInterval p.1 p.2) =
        (c', .ok (groupBytes cfg.restartInterval p.2)) ∧
      Agrees cfg file groups num_keys bits info c' := by
  obtain ⟨hsize, hmin, -, -, -, hblock⟩ := h.read_block hp
  have hoff : (indexEntryOf cfg.restartInterval p.1 p.2).offset = p.1 := rfl
  have hread : TableReader.readRange file p.1 (groupBytes cfg.restartInterval p.2).length =
      .ok (groupBytes cfg.restartInterval p.2) := readRange_of_hasAt hblock rfl h.size
  rw [ReadContext.fetchBlock, hc.same, hoff, hsize]
  have hkeep := hc.cache.find (info.id, p.1)
  rcases hfind : c.cache.find (info.id, p.1) with ⟨cache, _ | block⟩
  · rw [hfind] at hkeep
    dsimp only
    rw [hread]
    dsimp only
    rw [if_neg (by omega), crcMatches_groupBytes, hc.same]
    exact ⟨_, rfl, ⟨hc.reader, hc.same, hkeep.insert hp⟩⟩
  · have hmem := find_some (congrArg Prod.snd hfind)
    rw [hfind] at hkeep
    have hsame : block = groupBytes cfg.restartInterval p.2 := hc.cache _ hmem p hp rfl
    rw [← hsame]
    exact ⟨_, rfl, ⟨hc.reader, hc.same, hkeep⟩⟩

theorem Agrees.searchIndex (h : Table cfg file groups num_keys bits)
    (hsorted : groups.flatten.Pairwise (fun a b => a.1 < b.1))
    (hc : Agrees cfg file groups num_keys bits info c)
    (hloaded : c.reader.footerLoaded = true) (key : Bytes) :
    ∃ c', c.searchIndex file key = (c', .ok (findList key groups.flatten)) ∧
      Agrees cfg file groups num_keys bits info c' := by
  obtain ⟨r, hindex, hready, hinfo⟩ := hc.reader.currentIndex h hloaded
  have hagree : Agrees cfg file groups num_keys bits info { c with reader := r } :=
    ⟨hready, hinfo.trans hc.same, hc.cache⟩
  rw [ReadContext.searchIndex, hindex]
  dsimp only
  rcases lastNotAbove_indexFrom cfg.restartInterval h.nonempty hsorted key with
    ⟨hnone, hfind⟩ | ⟨p, hp, hsome, hfind⟩
  · rw [hnone, hfind]
    exact ⟨_, rfl, hagree⟩
  · obtain ⟨c', hfetch, hagree'⟩ := hagree.fetchBlock h hp
    have hmem := mem_groups hp
    rw [hsome, hfind]
    dsimp only
    rw [hfetch]
    refine ⟨c', ?_, hagree'⟩
    dsimp only
    rw [searchBlock_groupBytes (h.rows p.2 hmem) ((sorted_groups hsorted).1 p.2 hmem)
      (h.nonempty p.2 hmem) (h.small p.2 hmem)]

theorem Agrees.searchBloom (h : Table cfg file groups num_keys bits)
    (hf : FilterFits cfg groups bits)
    (hsorted : groups.flatten.Pairwise (fun a b => a.1 < b.1))
    (hc : Agrees cfg file groups num_keys bits info c)
    (hloaded : c.reader.footerLoaded = true) (key : Bytes) :
    ∃ c', c.searchBloom file key = (c', .ok (findList key groups.flatten)) ∧
      Agrees cfg file groups num_keys bits info c' := by
  obtain ⟨r, hbloom, hready, hloaded', hinfo, hbits, hnum, hhashes⟩ :=
    hc.reader.currentBloom h hf hloaded
  have hnumBits := hf.numBits
  have hpos : 0 < cfg.numBits := by omega
  obtain ⟨answer, hanswer⟩ := Bloom.exists_mayContain cfg.numHashes hpos
    hf.length_bits key
  have hprobe : r.bloomMayContain key = some answer := by
    rw [TableReader.bloomMayContain, hbits, hnum, hhashes, hanswer]
  rw [ReadContext.searchBloom, hbloom]
  dsimp only
  rw [hprobe]
  cases answer with
  | false =>
    have hfind : findList key groups.flatten = none := by
      refine findList_eq_none_iff.mpr (fun e he hek => ?_)
      have htrue := Bloom.mayContain_of_mem cfg.numHashes hpos
        (List.mem_map_of_mem (f := Prod.fst) he)
      rw [← hf.bits, hek, hanswer] at htrue
      cases htrue
    rw [hfind]
    exact ⟨_, rfl, ⟨hready, hinfo.trans hc.same, hc.cache⟩⟩
  | true =>
    have hagree : Agrees cfg file groups num_keys bits info { c with
        reader := r
        stats := { c.stats with bloomsChecked := c.stats.bloomsChecked + 1 } } :=
      ⟨hready, hinfo.trans hc.same, hc.cache⟩
    exact hagree.searchIndex h hsorted hloaded' key

theorem Agrees.get (h : Table cfg file groups num_keys bits) (hf : FilterFits cfg groups bits)
    (hsorted : groups.flatten.Pairwise (fun a b => a.1 < b.1))
    (hmin : ∀ e ∈ groups.flatten, info.minKey ≤ e.1)
    (hmax : ∀ e ∈ groups.flatten, e.1 ≤ info.maxKey)
    (hc : Agrees cfg file groups num_keys bits info c) (key : Bytes) :
    ∃ c', c.get key = (c', .ok (findList key groups.flatten)) ∧
      Agrees cfg file groups num_keys bits info c' := by
  rw [ReadContext.get, hc.same]
  split
  · rename_i hout
    have hfind : findList key groups.flatten = none := by
      refine findList_eq_none_iff.mpr (fun e he hek => ?_)
      rcases hout with hlt | hgt
      · exact absurd (hek ▸ hmin e he) (not_le.mpr hlt)
      · exact absurd (hek ▸ hmax e he) (not_le.mpr hgt)
    rw [hfind]
    exact ⟨_, rfl, ⟨hc.reader, hc.same, hc.cache⟩⟩
  · obtain ⟨r, hopen, hready, hloaded, hinfo⟩ := hc.reader.ensureOpen h
    rw [hopen]
    have hagree : Agrees cfg file groups num_keys bits info { c with reader := r } :=
      ⟨hready, hinfo.trans hc.same, hc.cache⟩
    exact hagree.searchBloom h hf hsorted hloaded key

/-- Lookups one after another on one reader and one cache. -/
def getAll : List Bytes → ReadContext → ReadContext × List (Except Fault (Option TableHit))
  | [], c => (c, [])
  | key :: keys, c => ((getAll keys (c.get key).1).1, (c.get key).2 :: (getAll keys (c.get key).1).2)

theorem Agrees.getAll (h : Table cfg file groups num_keys bits) (hf : FilterFits cfg groups bits)
    (hsorted : groups.flatten.Pairwise (fun a b => a.1 < b.1))
    (hmin : ∀ e ∈ groups.flatten, info.minKey ≤ e.1)
    (hmax : ∀ e ∈ groups.flatten, e.1 ≤ info.maxKey)
    (hc : Agrees cfg file groups num_keys bits info c) (keys : List Bytes) :
    (Sst.getAll keys c).2 = keys.map (fun key => .ok (findList key groups.flatten)) := by
  induction keys generalizing c with
  | nil => rfl
  | cons key keys ih =>
    obtain ⟨c', hget, hagree⟩ := hc.get h hf hsorted hmin hmax key
    rw [Sst.getAll, hget, ih hagree]
    rfl

end

/-- A reader just created for a table, with the cache of the process. -/
def freshReader (file : Bytes) (info : TableMeta) (cache_index_blocks : Bool)
    (cache : BlockCache) : ReadContext :=
  ⟨{ file := some file, info := info, cacheIndexBlocks := cache_index_blocks }, cache, {}, {}⟩

/-- A fresh reader agrees with its file, whatever a cache holds of other tables. -/
theorem agrees_freshReader {cfg : SstConfig} {file bits : Bytes} {groups : List (List Entry)}
    {num_keys : ℕ} {info : TableMeta} (cache_index_blocks : Bool) {cache : BlockCache}
    (hcache : ∀ n ∈ cache.lru, n.1.1 ≠ info.id) :
    Agrees cfg file groups num_keys bits info
      (freshReader file info cache_index_blocks cache) := by
  refine ⟨⟨rfl, .inr rfl, nofun, nofun, nofun, nofun, .inl rfl, nofun⟩, rfl, ?_⟩
  intro n hn p _ hkey
  refine absurd ?_ (hcache n hn)
  rw [hkey]

theorem filterFits_buildBlocks {mem : Memtable} {cfg : SstConfig} (h : WriteFits cfg mem)
    {groups : List (List Entry)} (hflat : groups.flatten = mem.map.entries) :
    FilterFits cfg groups (buildBlocks cfg mem).bits :=
  ⟨h.numBits, h.numHashes.1, by rw [hflat]; exact (sums_buildBlocks cfg mem).bits⟩

/-- A fresh reader on the published file, with any cache that holds nothing of its table,
answers every sequence of lookups as the memtable would have. -/
theorem getAll_writeSstable (id created_at : ℕ) (mem : Memtable) (cfg : SstConfig)
    (h : WriteFits cfg mem) (cache_index_blocks : Bool) (cache : BlockCache)
    (hcache : ∀ n ∈ cache.lru, n.1.1 ≠ id) (keys : List Bytes) :
    ∃ result file, writeSstable id mem cfg = .ok (result, file) ∧
      (getAll keys (freshReader file (result.toMeta created_at) cache_index_blocks cache)).2 =
        keys.map (fun key => .ok (mem.find key)) := by
  obtain ⟨groups, htable, hflat, -⟩ := exists_table h
  obtain ⟨result, hwrite, hid, hdesc⟩ := writeSstable_ok h id
  have hagree : Agrees cfg (tableBytes cfg mem) groups mem.entries (buildBlocks cfg mem).bits
      (result.toMeta created_at) (freshReader (tableBytes cfg mem) (result.toMeta created_at)
        cache_index_blocks cache) :=
    agrees_freshReader cache_index_blocks (fun n hn hn' => hcache n hn (hn'.trans hid))
  refine ⟨result, _, hwrite, ?_⟩
  rw [hagree.getAll htable (filterFits_buildBlocks h hflat)]
  · rw [hflat]
    rfl
  · rw [hflat]
    exact mem.map.sorted
  · intro e he
    exact hdesc.minKey.2 ⟨e, hflat ▸ he, rfl⟩
  · intro e he
    exact hdesc.maxKey.2 ⟨e, hflat ▸ he, rfl⟩

theorem getAll_writeSstable_two : ∃ result file,
    writeSstable 1 ((Memtable.apply [0x62] [1, 2] 7 false ⟨32, ∅, 0⟩).apply [0x61] [] 8 true)
      ⟨1, 1, 64, 1, .ten⟩ = .ok (result, file) ∧
      (getAll [[0x61], [0x62], [0x63]] (freshReader file (result.toMeta 0) true ⟨0, [], [], 0⟩)).2 =
        [.ok (some ⟨[], 8, true⟩), .ok (some ⟨[1, 2], 7, false⟩), .ok none] :=
  getAll_writeSstable 1 0 _ _ writeFits_two true ⟨0, [], [], 0⟩ (by simp) _

end Sst
end LsmKv
