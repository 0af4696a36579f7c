import LsmKv.BlockSearch
import LsmKv.TableGet
import LsmKv.VerifiedFile

/-!
# Reading a file that verifies

When the readers get through a verified file. The verifier looks at checksums only: the filter
may be shorter than its header, a block shorter than its trailer, and restart points and rows
may be anything.
-/

namespace LsmKv
namespace Sst

open TableReader ReadContext

/-! ## Scanning -/

def RowStands (base : ℕ) (block : Bytes) (entries_end pos : ℕ) (e : Entry) (next : ℕ) : Prop :=
  readEntry base block entries_end pos = .ok (e, next)

/-- The restart points leave room, and rows fill what is before them. -/
def RowsFill (base : ℕ) (block : Bytes) : Prop :=
  ∃ restart_count rows, readLe block (block.length - 8) 4 = some restart_count ∧
    ¬block.length < 8 + 4 * restart_count ∧
    Spells (RowStands base block (block.length - 8 - 4 * restart_count))
      (block.length - 8 - 4 * restart_count) 0 rows

theorem scanBlock_iff (base : ℕ) {block : Bytes} (entries : List Entry) (h : 8 ≤ block.length) :
    (∃ es, scanBlock base block entries = .ok es) ↔ RowsFill base block := by
  have hread : readLe block (block.length - 8) 4 = some _ := readLe_of_le (by omega)
  generalize leNat ((block.drop (block.length - 8)).take 4) = restart_count at hread
  constructor
  · rintro ⟨es, hscan⟩
    rw [scanBlock, hread, demand_some, ok_bind] at hscan
    obtain ⟨hroom, hwalk⟩ := ite_error_eq_ok hscan
    obtain ⟨rows, hrows⟩ : ∃ rows, Spells (RowStands base block
        (block.length - 8 - 4 * restart_count)) (block.length - 8 - 4 * restart_count) 0 rows :=
      exists_spells (fun s pos s' next _ hturn => by
        obtain ⟨⟨e, next'⟩, hentry, hturn⟩ := bind_eq_ok hturn
        obtain rfl := (Prod.mk.inj (Except.ok.inj hturn)).2
        have hnext := (readEntry_next hentry).1
        rw [kEntryHeader] at hnext
        exact ⟨by omega, e, hentry⟩) hwalk (by omega)
    exact ⟨_, rows, hread, hroom, hrows⟩
  · rintro ⟨restart_count', rows, hread', hroom, hrows⟩
    rw [scanBlock, hread', demand_some, ok_bind, if_neg hroom]
    rw [hrows.walk (fun es e => .ok (es ++ [e])) (fun s pos e next _ hentry => ?_)
      (by omega)]
    · exact (foldlM_eq_ok_iff (fun _ => True)
        (fun es e _ => ⟨fun _ => trivial, fun _ => ⟨_, rfl⟩⟩) entries).mpr (fun _ _ => trivial)
    · have hnext := (readEntry_next hentry).1
      rw [kEntryHeader] at hnext
      rw [hentry]
      exact ⟨by omega, rfl⟩

section
variable {file : Bytes} {index : List IndexEntry}

theorem Verified.length_block (h : Verified file index) {x : IndexEntry} (hx : x ∈ index) :
    (blockOf file x).length = x.size := (readRange_eq_ok ((h.blocks x hx).2.1 .outside)).1

/-- A block the scanner gets through: there, under its checksum, and filled with rows. -/
def BlockScans (file : Bytes) (off size : ℕ) : Prop :=
  12 ≤ size ∧ ∃ block, readRange file off size (corrupt off "short read on data block") =
    .ok block ∧ crcMatches block size = .ok true ∧ RowsFill off block

theorem scanVisit_iff (file : Bytes) (entries : List Entry) (x : IndexEntry) :
    (∃ es, scanVisit file entries x = .ok es) ↔ BlockScans file x.offset x.size := by
  rw [scanVisit, BlockScans]
  rcases hread : readRange file x.offset x.size
    (corrupt x.offset "short read on data block") with e | block
  · refine ⟨?_, ?_⟩
    · rintro ⟨es, ⟨⟩⟩
    · rintro ⟨-, block, ⟨⟩, -⟩
  have hlen := (readRange_eq_ok hread).1
  simp only [ok_bind]
  by_cases hsmall : x.size < 12
  · simp only [if_pos hsmall]
    refine ⟨?_, fun hgood => absurd hsmall (by omega)⟩
    rintro ⟨es, ⟨⟩⟩
  simp only [if_neg hsmall]
  constructor
  · rintro ⟨es, hes⟩
    obtain ⟨sound, hcrc, hes⟩ := bind_eq_ok hes
    cases sound with
    | false => cases hes
    | true => exact ⟨not_lt.mp hsmall, block, rfl, hcrc,
        (scanBlock_iff x.offset entries (by omega)).mp ⟨es, hes⟩⟩
  · rintro ⟨-, block', hblock, hcrc, hrows⟩
    obtain rfl := Except.ok.inj hblock
    rw [hcrc, ok_bind, if_pos rfl]
    exact (scanBlock_iff x.offset entries (by omega)).mpr hrows

/-- Of a verified block the scanner asks for its rows only. -/
theorem Verified.blockScans_iff (h : Verified file index) {x : IndexEntry} (hx : x ∈ index) :
    BlockScans file x.offset x.size ↔ 12 ≤ x.size ∧ RowsFill x.offset (blockOf file x) := by
  obtain ⟨-, hread, hcrc⟩ := h.blocks x hx
  constructor
  · rintro ⟨hsize, block, hblock, -, hrows⟩
    obtain rfl := Except.ok.inj ((hread _).symm.trans hblock)
    exact ⟨hsize, hrows⟩
  · exact fun hrows => ⟨hrows.1, _, hread _, hcrc, hrows.2⟩

theorem Verified.scanVisit_iff (h : Verified file index) {x : IndexEntry} (hx : x ∈ index)
    (entries : List Entry) : (∃ es, scanVisit file entries x = .ok es) ↔
      12 ≤ x.size ∧ RowsFill x.offset (blockOf file x) :=
  (Sst.scanVisit_iff file entries x).trans (h.blockScans_iff hx)

theorem outOfRange_of_le {f : Footer} {size least : ℕ} (h : f.outOfRange size 4 = false)
    (hleast : least ≤ f.filterSize) : f.outOfRange size least = false := by
  simp only [Footer.outOfRange, Bool.or_eq_false_iff, decide_eq_false_iff_not] at h ⊢
  exact ⟨h.1, by omega⟩

theorem Verified.inspectFooter (h : Verified file index) :
    Sst.inspectFooter file = if (footerOf file).filterSize < 24 then
      .error (inspectFail "footer offsets out of range") else .ok (footerOf file) := by
  have hread := readRange_footer (inspectFail ("short read at offset " ++
    toString (file.length - kFooterSize))) h.long h.seekable
  rw [Sst.inspectFooter, if_neg (not_lt.mpr h.long), inspectRead, hread, ok_bind]
  simp only
  rw [show Footer.decode (file.drop (file.length - kFooterSize)) = footerOf file from rfl,
    if_neg (not_not.mpr h.magic)]
  by_cases hsmall : (footerOf file).filterSize < 24
  · have hout : (footerOf file).outOfRange file.length 24 = true := by
      simp [Footer.outOfRange, hsmall]
    rw [if_pos hout, if_pos hsmall]
  · rw [outOfRange_of_le h.inRange (not_lt.mp hsmall), if_neg (by decide), if_neg hsmall]

theorem Verified.inspect (h : Verified file index) (hfilter : 24 ≤ (footerOf file).filterSize)
    {sizes : List ℕ} (hsizes : Inspects file sizes) :
    ∃ info, inspectSstable (some file) = .ok info ∧ info.indexOff = (footerOf file).indexOff ∧
      info.indexSize = (footerOf file).indexSize := by
  have hlen := (readRange_eq_ok (h.readFilter .outside)).1
  obtain ⟨lo, hi, hfold⟩ := foldl_countBlock id sizes
    ⟨file.length, (footerOf file).version, (footerOf file).indexOff, (footerOf file).indexSize,
      (footerOf file).filterOff, (footerOf file).filterSize, 0, 0, 0, 0, 0, 0⟩
  have hindex := hsizes.walk ⟨file.length, (footerOf file).version,
    (footerOf file).indexOff, (footerOf file).indexSize, (footerOf file).filterOff,
    (footerOf file).filterSize, 0, 0, 0, 0, 0, 0⟩
  rw [show sizes.foldl SstInfo.countBlock _ = _ from hfold] at hindex
  refine ⟨⟨file.length, (footerOf file).version, (footerOf file).indexOff,
    (footerOf file).indexSize, (footerOf file).filterOff, (footerOf file).filterSize,
    0 + sizes.length, lo, hi, filterBits (filterOf file), filterHashes (filterOf file),
    leNat (((filterOf file).drop 12).take 8)⟩, ?_, rfl, rfl⟩
  rw [inspectSstable, h.inspectFooter, if_neg (by omega), ok_bind, inspectIndex, inspectRead,
    h.readIndex, ok_bind, h.crcIndex, ok_bind, if_pos rfl, hindex, ok_bind, inspectFilter,
    inspectRead, h.readFilter, ok_bind, h.crcFilter, ok_bind, if_pos rfl,
    readLe_of_le (by omega), readLe_of_le (by omega), readLe_of_le (by omega)]
  rfl

/-- A verified file is scanned to the end if and only if its filter holds a header, and the two
walks along the index come upon the sizes and upon the blocks of rows. -/
theorem Verified.scan_iff (h : Verified file index) :
    (∃ rows, scanSstable (some file) = .ok rows) ↔ 24 ≤ (footerOf file).filterSize ∧
      (∃ sizes, Inspects file sizes) ∧
      ∃ blocks, Scans file blocks ∧ ∀ x ∈ blocks, BlockScans file x.1 x.2 := by
  have hvisit : ∀ (es : List Entry) (x : ℕ × ℕ),
      (∃ es', scanVisit file es ⟨[], x.1, x.2⟩ = .ok es') ↔ BlockScans file x.1 x.2 :=
    fun es x => Sst.scanVisit_iff file es ⟨[], x.1, x.2⟩
  have hscan : ∀ {info : SstInfo}, inspectSstable (some file) = .ok info →
      info.indexOff = (footerOf file).indexOff → info.indexSize = (footerOf file).indexSize →
      scanSstable (some file) = LsmKv.walk (scanStep file (indexOf file))
        ((footerOf file).indexSize - 4) (footerOf file).indexSize [] 0 := by
    intro info hinspect hoff hsize
    rw [scanSstable, hinspect, ok_bind]
    simp only [hoff, hsize]
    rw [h.readIndex, ok_bind]
  constructor
  · rintro ⟨rows, hrows⟩
    have hinspected : ∃ info, inspectSstable (some file) = .ok info := by
      obtain ⟨info, hinfo, -⟩ := bind_eq_ok hrows
      exact ⟨info, hinfo⟩
    have hfilter : 24 ≤ (footerOf file).filterSize := by
      by_contra hsmall
      obtain ⟨info, hinfo⟩ := hinspected
      rw [inspectSstable, h.inspectFooter, if_pos (by omega)] at hinfo
      cases hinfo
    obtain ⟨sizes, hsizes⟩ : ∃ sizes, Inspects file sizes := by
      obtain ⟨info, hinfo⟩ := hinspected
      rw [inspectSstable, h.inspectFooter, if_neg (by omega), ok_bind] at hinfo
      obtain ⟨info', hindex, -⟩ := bind_eq_ok hinfo
      rw [inspectIndex, inspectRead, h.readIndex, ok_bind, h.crcIndex, ok_bind,
        if_pos rfl] at hindex
      exact exists_inspects hindex
    obtain ⟨info, hinspect, hoff, hsize⟩ := h.inspect hfilter hsizes
    rw [hscan hinspect hoff hsize] at hrows
    obtain ⟨blocks, hblocks⟩ := exists_scans hrows
    rw [hblocks.walk] at hrows
    exact ⟨hfilter, ⟨sizes, hsizes⟩, blocks, hblocks,
      (foldlM_eq_ok_iff _ (fun es x _ => hvisit es x) []).mp ⟨rows, hrows⟩⟩
  · rintro ⟨hfilter, ⟨sizes, hsizes⟩, blocks, hblocks, hgood⟩
    obtain ⟨info, hinspect, hoff, hsize⟩ := h.inspect hfilter hsizes
    rw [hscan hinspect hoff hsize, hblocks.walk]
    exact (foldlM_eq_ok_iff _ (fun es x _ => hvisit es x) []).mpr hgood

theorem Scans.unique {xs ys : List (ℕ × ℕ)} (h : Scans file xs) (h' : Scans file ys) :
    xs = ys := by
  refine Spells.unique (fun pos x next x' next' hat hat' => ?_) h h'
  obtain ⟨key_len, hlen, hoff, hsize, rfl⟩ := hat
  obtain ⟨key_len', hlen', hoff', hsize', rfl⟩ := hat'
  obtain rfl := Option.some.inj (hlen.symm.trans hlen')
  exact ⟨Prod.ext (Option.some.inj (hoff.symm.trans hoff'))
    (Option.some.inj (hsize.symm.trans hsize')), rfl⟩

/-- When no key of the index is long, the walks come upon the entries. -/
theorem Verified.scan_iff_of_short (h : Verified file index) (hshort : ∀ x ∈ index, x.Short) :
    (∃ rows, scanSstable (some file) = .ok rows) ↔ 24 ≤ (footerOf file).filterSize ∧
      ∀ x ∈ index, 12 ≤ x.size ∧ RowsFill x.offset (blockOf file x) := by
  rw [h.scan_iff]
  refine and_congr_right (fun _ => ⟨?_, fun hrows => ⟨⟨_, h.indexes.inspects hshort⟩, _,
    h.indexes.scans hshort, fun p hp => ?_⟩⟩)
  · rintro ⟨-, blocks, hblocks, hgood⟩ x hx
    rw [hblocks.unique (h.indexes.scans hshort)] at hgood
    exact (h.blockScans_iff hx).mp (hgood _ (List.mem_map_of_mem hx))
  · obtain ⟨x, hx, rfl⟩ := List.mem_map.mp hp
    exact (h.blockScans_iff hx).mpr (hrows x hx)

/-! ## Point lookups -/

/-- The layout check of `load_bloom`. -/
def LayoutValid (file : Bytes) : Prop :=
  filterBits (filterOf file) ≠ 0 ∧ filterHashes (filterOf file) ≠ 0 ∧
    20 + (filterBits (filterOf file) + 7) % 2 ^ 64 / 8 + 4 = (footerOf file).filterSize

def bloomBitsOf (file : Bytes) : Bytes :=
  ((filterOf file).drop 20).take ((filterBits (filterOf file) + 7) % 2 ^ 64 / 8)

def filterPasses (file key : Bytes) : Option Bool :=
  Bloom.mayContain (filterBits (filterOf file)) (filterHashes (filterOf file)) (bloomBitsOf file)
    key

/-- Steps 3 to 5 of `get` on a file whose sections and blocks are as the verifier saw them. -/
def indexedGet (file : Bytes) (index : List IndexEntry) (key : Bytes) :
    Except Fault (Option TableHit) :=
  match lastNotAbove index key with
  | none => .ok none
  | some x =>
    if x.size < 12 then .error (corrupt x.offset "data block too small")
    else searchBlock x.offset (blockOf file x) key

/-- Steps 2 to 5, after what the filter says. -/
def filteredGet (passes : Option Bool) (file : Bytes) (index : List IndexEntry) (key : Bytes) :
    Except Fault (Option TableHit) :=
  match passes with
  | none => .error .outside
  | some false => .ok none
  | some true => indexedGet file index key

theorem mem_of_lastNotAbove {key : Bytes} {x : IndexEntry}
    (h : lastNotAbove index key = some x) : x ∈ index := by
  unfold lastNotAbove at h
  split at h
  · cases h
  · exact List.mem_of_getElem? h

theorem Verified.passes (h : Verified file index) (hfilter : 24 ≤ (footerOf file).filterSize) :
    Passes file :=
  ⟨h.long, h.seekable, h.magic, h.version, outOfRange_of_le h.inRange hfilter⟩

theorem Verified.loadIndex (h : Verified file index) {r : TableReader}
    (hoff : r.indexOff = (footerOf file).indexOff)
    (hsize : r.indexSize = (footerOf file).indexSize) : r.loadIndex file = .ok index := by
  have hwalk := h.indexes.walk (fun index x => .ok (index ++ [x]))
    (fun index pos x hat => loadIndexStep_of_indexAt r.indexOff hat index) []
  have hfold : ∀ (xs ys : List IndexEntry),
      xs.foldlM (fun index x => (Except.ok (index ++ [x]) : Except Fault _)) ys =
        .ok (ys ++ xs) := by
    intro xs
    induction xs with
    | nil => intro ys; rw [List.append_nil]; rfl
    | cons x xs ih => intro ys; rw [List.foldlM_cons, ok_bind, ih, List.append_assoc]; rfl
  rw [hfold, List.nil_append] at hwalk
  rw [TableReader.loadIndex, TableReader.readRange, hsize, hoff, h.readIndex, ok_bind, h.crcIndex,
    ok_bind, if_pos rfl]
  rw [hoff] at hwalk
  exact hwalk

theorem Verified.fetchBlock (h : Verified file index) {x : IndexEntry} (hx : x ∈ index)
    {c : ReadContext} (hcache : ∀ n ∈ c.cache.lru, n.1.1 ≠ c.reader.info.id) :
    ∃ c', ReadContext.fetchBlock file x c = (c', if x.size < 12 then
      .error (corrupt x.offset "data block too small") else .ok (blockOf file x)) := by
  obtain ⟨-, hread, hcrc⟩ := h.blocks x hx
  unfold ReadContext.fetchBlock
  rcases hfind : c.cache.find (c.reader.info.id, x.offset) with ⟨cache, _ | block⟩
  · dsimp only
    rw [TableReader.readRange, hread]
    by_cases hsmall : x.size < 12
    · simp only [if_pos hsmall]
      exact ⟨_, rfl⟩
    · simp only [if_neg hsmall, hcrc]
      exact ⟨_, rfl⟩
  · have hmem := find_some (congrArg Prod.snd hfind)
    exact absurd rfl (hcache _ hmem)

/-- The footer is loaded, and nothing of the table besides. -/
structure Opened (file : Bytes) (c : ReadContext) : Prop where
  indexOff : c.reader.indexOff = (footerOf file).indexOff
  indexSize : c.reader.indexSize = (footerOf file).indexSize
  filterOff : c.reader.filterOff = (footerOf file).filterOff
  filterSize : c.reader.filterSize = (footerOf file).filterSize
  noBloom : c.reader.bloomBits = []
  unpinned : c.reader.indexPinned = false
  cache : ∀ n ∈ c.cache.lru, n.1.1 ≠ c.reader.info.id

theorem Verified.currentIndex (h : Verified file index) {r : TableReader}
    (hoff : r.indexOff = (footerOf file).indexOff)
    (hsize : r.indexSize = (footerOf file).indexSize) (hpin : r.indexPinned = false) :
    ∃ r', ReadContext.currentIndex file r = (r', .ok index) ∧ r'.info = r.info := by
  rw [ReadContext.currentIndex, h.loadIndex hoff hsize, hpin]
  split
  · exact ⟨_, rfl, rfl⟩
  · exact ⟨_, rfl, rfl⟩

theorem Verified.searchIndex (h : Verified file index) {c : ReadContext} (key : Bytes)
    (hoff : c.reader.indexOff = (footerOf file).indexOff)
    (hsize : c.reader.indexSize = (footerOf file).indexSize) (hpin : c.reader.indexPinned = false)
    (hcache : ∀ n ∈ c.cache.lru, n.1.1 ≠ c.reader.info.id) :
    (ReadContext.searchIndex file key c).2 = indexedGet file index key := by
  obtain ⟨r, hindex, hinfo⟩ := h.currentIndex hoff hsize hpin
  rw [ReadContext.searchIndex, hindex, indexedGet]
  dsimp only
  rcases hx : lastNotAbove index key with _ | x
  · rfl
  · obtain ⟨c', hfetch⟩ := h.fetchBlock (mem_of_lastNotAbove hx) (c := { c with reader := r })
      (by rw [hinfo]; exact hcache)
    dsimp only
    rw [hfetch]
    by_cases hsmall : x.size < 12
    · rw [if_pos hsmall, if_pos hsmall]
    · rw [if_neg hsmall, if_neg hsmall]

theorem Opened.loadBloom {c : ReadContext} (hc : Opened file c) (h : Verified file index)
    (hfilter : 24 ≤ (footerOf file).filterSize) :
    (¬LayoutValid file → ∃ r e, c.reader.loadBloom file = (r, .error e)) ∧
      (LayoutValid file → ∃ r, c.reader.loadBloom file = (r, .ok ()) ∧
        r.bloomNumBits = filterBits (filterOf file) ∧
        r.bloomNumHashes = filterHashes (filterOf file) ∧ r.bloomBits = bloomBitsOf file ∧
        r.indexOff = c.reader.indexOff ∧ r.indexSize = c.reader.indexSize ∧
        r.indexPinned = c.reader.indexPinned ∧ r.info = c.reader.info) := by
  have hread : TableReader.readRange file c.reader.filterOff c.reader.filterSize =
      .ok (filterOf file) := by
    rw [TableReader.readRange, hc.filterOff, hc.filterSize, h.readFilter]
  have hbloom := loadBloom_of_read hread (by rw [hc.filterSize]; exact hfilter)
    (by rw [hc.filterSize]; exact h.crcFilter)
  rw [hc.filterSize] at hbloom
  constructor
  · intro hinvalid
    rw [LayoutValid, not_and_or, not_and_or, not_not, not_not] at hinvalid
    rw [if_pos hinvalid] at hbloom
    exact ⟨_, _, hbloom⟩
  · rintro ⟨hbits, hhashes, hlayout⟩
    rw [if_neg (by rw [not_or, not_or, not_not]; exact ⟨hbits, hhashes, hlayout⟩)] at hbloom
    exact ⟨_, hbloom, rfl, rfl, rfl, rfl, rfl, rfl, rfl⟩

/-- A reader that has just loaded the footer of a verified file gets as far as the filter
block allows. -/
theorem Opened.searchBloom {c : ReadContext} (hc : Opened file c) (h : Verified file index)
    (hfilter : 24 ≤ (footerOf file).filterSize) (key : Bytes) :
    (¬LayoutValid file → ∃ e, (ReadContext.searchBloom file key c).2 = .error e) ∧
      (LayoutValid file →
        (ReadContext.searchBloom file key c).2 =
          filteredGet (filterPasses file key) file index key) := by
  obtain ⟨hinvalid, hvalid⟩ := hc.loadBloom h hfilter
  rw [ReadContext.searchBloom, ReadContext.currentBloom, if_pos hc.noBloom]
  constructor
  · intro hlayout
    obtain ⟨r, e, hload⟩ := hinvalid hlayout
    rw [hload]
    exact ⟨e, rfl⟩
  · intro hlayout
    obtain ⟨r, hload, hbits, hhashes, hbloom, hoff, hsize, hpin, hinfo⟩ := hvalid hlayout
    obtain ⟨passes, hp⟩ : ∃ passes, filterPasses file key = passes := ⟨_, rfl⟩
    have hpass : r.bloomMayContain key = passes := by
      rw [bloomMayContain, hbits, hhashes, hbloom, ← hp, filterPasses]
    rw [hload, hp]
    dsimp only
    rw [hpass]
    rcases passes with _ | _ | _
    · rfl
    · rfl
    · exact h.searchIndex key (hoff.trans hc.indexOff) (hsize.trans hc.indexSize)
        (hpin.trans hc.unpinned) (by rw [hinfo]; exact hc.cache)

/-- The first lookup of a fresh reader, for a key in the range of its table. -/
theorem Verified.get (h : Verified file index) (hfilter : 24 ≤ (footerOf file).filterSize)
    (info : TableMeta) (key : Bytes) (cache : BlockCache) (hmin : info.minKey ≤ key)
    (hmax : key ≤ info.maxKey) (cache_index_blocks : Bool)
    (hcache : ∀ n ∈ cache.lru, n.1.1 ≠ info.id) :
    (¬LayoutValid file → ∃ e,
      (ReadContext.get key (freshReader file info cache_index_blocks cache)).2 = .error e) ∧
    (LayoutValid file →
      (ReadContext.get key (freshReader file info cache_index_blocks cache)).2 =
        filteredGet (filterPasses file key) file index key) := by
  have hget : ∃ c, Opened file c ∧
      ReadContext.get key (freshReader file info cache_index_blocks cache) =
        ReadContext.searchBloom file key c := by
    rw [ReadContext.get, if_neg (by
      rw [not_or, not_lt, not_lt]
      exact ⟨hmin, hmax⟩), TableReader.ensureOpen]
    simp only [freshReader]
    rw [loadFooter_of_passes (h.passes hfilter)]
    refine ⟨_, ?_, rfl⟩
    exact ⟨rfl, rfl, rfl, rfl, rfl, rfl, hcache⟩
  obtain ⟨c, hc, hget⟩ := hget
  rw [hget]
  exact hc.searchBloom h hfilter key

end

/-! ## Files that verify and read -/

/-- A scan, the footer check and the first lookup of any key complete. -/
structure Reads (file : Bytes) : Prop where
  scan : ∃ rows, scanSstable (some file) = .ok rows
  validate : ∀ info cache_index_blocks cache, ∃ r,
    (freshReader file info cache_index_blocks cache).reader.validateFooter = (r, .ok ())
  get : ∀ info cache_index_blocks cache, (∀ n ∈ cache.lru, n.1.1 ≠ info.id) → ∀ key, ∃ hit,
    (ReadContext.get key (freshReader file info cache_index_blocks cache)).2 = .ok hit

/-- What the readers need of a verified file besides its checksums. -/
structure WellFormed (file : Bytes) : Prop where
  filterSize : 24 ≤ (footerOf file).filterSize
  bits : filterBits (filterOf file) ≠ 0
  hashes : filterHashes (filterOf file) ≠ 0
  layout : 20 + (filterBits (filterOf file) + 7) / 8 + 4 = (footerOf file).filterSize
  noWrap : filterBits (filterOf file) + 7 < 2 ^ 64
  inspects : ∃ sizes, Inspects file sizes
  scans : ∃ blocks, Scans file blocks ∧ ∀ x ∈ blocks, BlockScans file x.1 x.2
  search : ∀ index, Indexes file index → ∀ key x, filterPasses file key = some true →
    lastNotAbove index key = some x → 12 ≤ x.size ∧ Searchable x.offset (blockOf file x) key

section
variable {file : Bytes} {index : List IndexEntry}

theorem Verified.validateFooter (h : Verified file index)
    (hfilter : 24 ≤ (footerOf file).filterSize) (info : TableMeta) (cache_index_blocks : Bool)
    (cache : BlockCache) : ∃ r,
      (freshReader file info cache_index_blocks cache).reader.validateFooter = (r, .ok ()) := by
  rw [TableReader.validateFooter]
  simp only [freshReader]
  rw [loadFooter_of_passes (h.passes hfilter)]
  exact ⟨_, rfl⟩

theorem WellFormed.layoutValid (h : WellFormed file) : LayoutValid file := by
  refine ⟨h.bits, h.hashes, ?_⟩
  rw [Nat.mod_eq_of_lt h.noWrap]
  exact h.layout

/-- The filter of a well-formed file has an answer for every key. -/
theorem WellFormed.exists_passes (h : WellFormed file) (hv : Verified file index) (key : Bytes) :
    ∃ answer, filterPasses file key = some answer := by
  have hlen := (readRange_eq_ok (hv.readFilter .outside)).1
  have hlayout := h.layout
  refine Bloom.exists_mayContain _ (Nat.pos_of_ne_zero h.bits) ?_ key
  rw [bloomBitsOf, Nat.mod_eq_of_lt h.noWrap, List.length_take, List.length_drop]
  omega

theorem WellFormed.get (h : WellFormed file) (hv : Verified file index) (info : TableMeta)
    (cache_index_blocks : Bool) {cache : BlockCache} (hcache : ∀ n ∈ cache.lru, n.1.1 ≠ info.id)
    (key : Bytes) : ∃ hit,
      (ReadContext.get key (freshReader file info cache_index_blocks cache)).2 = .ok hit := by
  by_cases hrange : key < info.minKey ∨ info.maxKey < key
  · refine ⟨none, ?_⟩
    rw [ReadContext.get, if_pos (by exact hrange)]
  rw [not_or, not_lt, not_lt] at hrange
  rw [(hv.get h.filterSize info key cache hrange.1 hrange.2 cache_index_blocks hcache).2
    h.layoutValid]
  obtain ⟨answer, hanswer⟩ := h.exists_passes hv key
  rw [hanswer]
  cases answer with
  | false => exact ⟨none, rfl⟩
  | true =>
    rw [filteredGet, indexedGet]
    rcases hx : lastNotAbove index key with _ | x
    · exact ⟨none, rfl⟩
    · have hmem := mem_of_lastNotAbove hx
      obtain ⟨hsize, hsearch⟩ := h.search index hv.indexes key x hanswer hx
      have hlen := hv.length_block hmem
      dsimp only
      rw [if_neg (by omega)]
      exact (searchable_iff x.offset key (by omega)).mpr hsearch

theorem WellFormed.reads (h : WellFormed file) (hv : Verified file index) : Reads file where
  scan := hv.scan_iff.mpr ⟨h.filterSize, h.inspects, h.scans⟩
  validate := hv.validateFooter h.filterSize
  get info cache_index_blocks _ hcache key := h.get hv info cache_index_blocks hcache key

/-- The lookup of a key in a table that holds only this key. -/
theorem Reads.get_self (h : Reads file) (key : Bytes) : ∃ hit,
    (ReadContext.get key (freshReader file ⟨0, key, key, 0, 0, 0, 0, 0, .ten, 0⟩ false
      ⟨0, [], [], 0⟩)).2 = .ok hit :=
  h.get _ _ _ (by simp) key

theorem Reads.filteredGet (h : Reads file) (hv : Verified file index)
    (hfilter : 24 ≤ (footerOf file).filterSize) (key : Bytes) :
    LayoutValid file ∧ ∃ hit,
      Sst.filteredGet (filterPasses file key) file index key = .ok hit := by
  obtain ⟨hit, hhit⟩ := h.get_self key
  obtain ⟨hinvalid, hvalid⟩ := hv.get hfilter ⟨0, key, key, 0, 0, 0, 0, 0, .ten, 0⟩ key
    ⟨0, [], [], 0⟩ le_rfl le_rfl false (by simp)
  have hlayout : LayoutValid file := by
    by_contra hne
    obtain ⟨e, he⟩ := hinvalid hne
    rw [he] at hhit
    cases hhit
  rw [hvalid hlayout] at hhit
  exact ⟨hlayout, hit, hhit⟩

/-- A bit count whose rounding wraps leaves the filter without a byte for its first probe. -/
theorem filterPasses_of_wrap (hhashes : filterHashes (filterOf file) ≠ 0)
    (hwrap : (filterBits (filterOf file) + 7) % 2 ^ 64 / 8 = 0) (key : Bytes) :
    filterPasses file key = none := by
  obtain ⟨n, hn⟩ := Nat.exists_eq_succ_of_ne_zero hhashes
  rw [filterPasses, bloomBitsOf, hwrap, List.take_zero, hn, Bloom.mayContain, Bloom.probes,
    List.range_succ_eq_map, List.map_cons, Bloom.allSet, Bloom.getBit]
  rfl

theorem Reads.wellFormed (h : Reads file) (hv : Verified file index) : WellFormed file := by
  obtain ⟨hfilter, hinspects, hscans⟩ := hv.scan_iff.mp h.scan
  have hfiltered := h.filteredGet hv hfilter
  obtain ⟨hbits, hhashes, hlayout⟩ := (hfiltered []).1
  have hlen := (readRange_eq_ok (hv.readFilter .outside)).1
  have hbits64 : readLe (filterOf file) 0 8 = some _ := readLe_of_le (by omega)
  have hlt : filterBits (filterOf file) < 2 ^ 64 := (readLe_eq_some hbits64).2
  have hno : filterBits (filterOf file) + 7 < 2 ^ 64 := by
    by_contra hge
    obtain ⟨-, hit, hhit⟩ := hfiltered []
    rw [filterPasses_of_wrap hhashes (by omega)] at hhit
    cases hhit
  rw [Nat.mod_eq_of_lt hno] at hlayout
  refine ⟨hfilter, hbits, hhashes, hlayout, hno, hinspects, hscans,
    fun index' hindex key x hpass hx => ?_⟩
  rw [hindex.unique hv.indexes] at hx
  have hlength := hv.length_block (mem_of_lastNotAbove hx)
  obtain ⟨-, hit, hhit⟩ := hfiltered key
  rw [hpass, Sst.filteredGet, indexedGet, hx] at hhit
  dsimp only at hhit
  obtain ⟨hsize, hsearch⟩ := ite_error_eq_ok hhit
  exact ⟨not_lt.mp hsize, (searchable_iff x.offset key (by omega)).mp ⟨hit, hsearch⟩⟩

/-- Where no key of the index is long, the two walks ask for rows in the blocks and for no
more. -/
theorem Verified.wellFormed_iff_of_short (h : Verified file index)
    (hshort : ∀ x ∈ index, x.Short) :
    WellFormed file ↔ LayoutValid file ∧ filterBits (filterOf file) + 7 < 2 ^ 64 ∧
      (∀ x ∈ index, 12 ≤ x.size ∧ RowsFill x.offset (blockOf file x)) ∧
      ∀ key x, filterPasses file key = some true → lastNotAbove index key = some x →
        Searchable x.offset (blockOf file x) key := by
  constructor
  · intro hwell
    have hrows := ((h.scan_iff_of_short hshort).mp
      (h.scan_iff.mpr ⟨hwell.filterSize, hwell.inspects, hwell.scans⟩)).2
    exact ⟨hwell.layoutValid, hwell.noWrap, hrows,
      fun key x hpass hx => (hwell.search index h.indexes key x hpass hx).2⟩
  · rintro ⟨⟨hbits, hhashes, hsize⟩, hno, hrows, hsearch⟩
    rw [Nat.mod_eq_of_lt hno] at hsize
    have hfilter : 24 ≤ (footerOf file).filterSize := by omega
    obtain ⟨-, hinspects, hscans⟩ :=
      h.scan_iff.mp ((h.scan_iff_of_short hshort).mpr ⟨hfilter, hrows⟩)
    refine ⟨hfilter, hbits, hhashes, hsize, hno, hinspects, hscans,
      fun index' hindex key x hpass hx => ?_⟩
    rw [hindex.unique h.indexes] at hx
    exact ⟨(hrows x (mem_of_lastNotAbove hx)).1, hsearch key x hpass hx⟩

end

/-- A file that verifies can be read if and only if its filter block is laid out as the readers
expect, the walks along its index come upon blocks that rows fill, and the restart points lead to
rows. -/
theorem reads_iff_wellFormed (file : Bytes) :
    (verifySstable (some file) = .ok "OK" → Reads file) ↔
      (verifySstable (some file) = .ok "OK" → WellFormed file) := by
  constructor
  · intro h hok
    obtain ⟨index, hv⟩ := verified_of_verify hok
    exact (h hok).wellFormed hv
  · intro h hok
    obtain ⟨index, hv⟩ := verified_of_verify hok
    exact (h hok).reads hv

/-- An empty index and a filter block that is nothing but a checksum. -/
def shortFilterFile : Bytes :=
  putU32 0 ++ (putU32 0 ++ Footer.encode ⟨0, 4, 4, 4, kVersion, kMagic⟩)

theorem not_reads_shortFilterFile :
    ¬∀ file, verifySstable (some file) = .ok "OK" → Reads file := by
  intro h
  obtain ⟨rows, hscan⟩ := (h shortFilterFile rfl).scan
  have hfail : scanSstable (some shortFilterFile) =
    .error (inspectFail "footer offsets out of range") := rfl
  rw [hfail] at hscan
  cases hscan

end Sst
end LsmKv
