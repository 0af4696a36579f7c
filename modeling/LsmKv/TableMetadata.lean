import LsmKv.SstContained

/-!
# Footer and filter checks of a table

What `load_footer` and `load_bloom` accept, for any bytes in the file. The range sums and the
rounding of the bit count wrap at 64 bits; the checks are exact on the files where they do not.
-/

namespace LsmKv
namespace Sst

/-- The footer a file ends with. -/
def footerOf (file : Bytes) : Footer := Footer.decode (file.drop (file.length - kFooterSize))

/-- The bytes the footer names as the filter block. -/
def filterOf (file : Bytes) : Bytes :=
  (file.drop (footerOf file).filterOff).take (footerOf file).filterSize

def filterBits (block : Bytes) : ℕ := leNat (block.take 8)

def filterHashes (block : Bytes) : ℕ := leNat ((block.drop 8).take 4)

/-- The footer passes every check of `load_footer`. -/
structure Passes (file : Bytes) : Prop where
  long : kFooterSize ≤ file.length
  seekable : file.length - kFooterSize < 2 ^ 63
  magic : (footerOf file).magic = kMagic
  version : (footerOf file).version = kVersion
  inRange : (footerOf file).outOfRange file.length 24 = false

theorem outOfRange_eq_false {f : Footer} {size min_filter : ℕ}
    (h : f.outOfRange size min_filter = false) :
    (f.indexOff + f.indexSize) % 2 ^ 64 ≤ size ∧ (f.filterOff + f.filterSize) % 2 ^ 64 ≤ size ∧
      4 ≤ f.indexSize ∧ min_filter ≤ f.filterSize := by
  simp only [Footer.outOfRange, Bool.or_eq_false_iff, decide_eq_false_iff_not, not_lt] at h
  obtain ⟨⟨⟨hindex, hfilter⟩, hsize⟩, hmin⟩ := h
  exact ⟨hindex, hfilter, hsize, hmin⟩

/-- The last bytes of a file, read as a footer. -/
theorem readRange_footer {file : Bytes} (short : Fault) (hlong : kFooterSize ≤ file.length)
    (hseek : file.length - kFooterSize < 2 ^ 63) :
    readRange file (file.length - kFooterSize) kFooterSize short =
      .ok (file.drop (file.length - kFooterSize)) := by
  rw [readRange_of_le short hseek (by decide) (by omega), List.take_of_length_le]
  rw [List.length_drop]
  omega

namespace TableReader

/-- The reader with the offsets of a footer taken over. -/
def withFooter (f : Footer) (r : TableReader) : TableReader :=
  { r with
    indexOff := f.indexOff, indexSize := f.indexSize
    filterOff := f.filterOff, filterSize := f.filterSize }

theorem loadFooter_eq {file : Bytes} (hlong : kFooterSize ≤ file.length)
    (hseek : file.length - kFooterSize < 2 ^ 63) (r : TableReader) :
    loadFooter file r =
      if (footerOf file).magic ≠ kMagic then
        (r, .error (corrupt (file.length - kFooterSize) "bad footer magic"))
      else if (footerOf file).version ≠ kVersion then
        (r, .error (corrupt (file.length - kFooterSize) "unsupported version"))
      else if (footerOf file).outOfRange file.length 24 then
        (withFooter (footerOf file) r,
          .error (corrupt (file.length - kFooterSize) "footer offsets out of range"))
      else ({ withFooter (footerOf file) r with footerLoaded := true }, .ok ()) := by
  have hread := readRange_footer (corrupt (file.length - kFooterSize) "short read") hlong hseek
  rw [loadFooter, if_neg (not_lt.mpr hlong), readRange, hread]
  rfl

theorem loadFooter_of_passes {file : Bytes} (h : Passes file) (r : TableReader) :
    loadFooter file r =
      ({ withFooter (footerOf file) r with footerLoaded := true }, .ok ()) := by
  rw [loadFooter_eq h.long h.seekable, if_neg (not_not.mpr h.magic),
    if_neg (not_not.mpr h.version), if_neg (by rw [h.inRange]; decide)]

theorem loadFooter_of_not_passes {file : Bytes} (h : ¬Passes file) (r : TableReader) :
    ∃ r' e, loadFooter file r = (r', .error e) ∧ e.IsCorruption := by
  by_cases hlong : kFooterSize ≤ file.length
  · by_cases hseek : file.length - kFooterSize < 2 ^ 63
    · rw [loadFooter_eq hlong hseek]
      split
      · exact ⟨_, _, rfl, rfl⟩
      rename_i hmagic
      split
      · exact ⟨_, _, rfl, rfl⟩
      rename_i hversion
      split
      · exact ⟨_, _, rfl, rfl⟩
      · rename_i hrange
        rw [not_not] at hmagic hversion
        exact absurd ⟨hlong, hseek, hmagic, hversion, by simpa using hrange⟩ h
    · have hread : readRange file (file.length - kFooterSize) kFooterSize =
          .error (corrupt (file.length - kFooterSize) "short read") := by
        rw [readRange, Sst.readRange, if_neg (by decide), readFile, if_pos (not_lt.mp hseek)]
        rfl
      rw [loadFooter, if_neg (not_lt.mpr hlong), hread]
      exact ⟨_, _, rfl, rfl⟩
  · rw [loadFooter, if_pos (not_le.mp hlong)]
    exact ⟨_, _, rfl, rfl⟩

/-- What `load_bloom` makes of a filter block whose checksum matches. -/
theorem loadBloom_of_read {file block : Bytes} {r : TableReader}
    (hread : readRange file r.filterOff r.filterSize = .ok block) (hsize : 24 ≤ r.filterSize)
    (hcrc : crcMatches block r.filterSize = .ok true) :
    loadBloom file r =
      if filterBits block = 0 ∨ filterHashes block = 0 ∨
          20 + (filterBits block + 7) % 2 ^ 64 / 8 + 4 ≠ r.filterSize then
        ({ r with bloomNumBits := filterBits block, bloomNumHashes := filterHashes block },
          .error (corrupt r.filterOff "filter block layout invalid"))
      else
        ({ r with
            bloomNumBits := filterBits block
            bloomNumHashes := filterHashes block
            bloomBits := (block.drop 20).take ((filterBits block + 7) % 2 ^ 64 / 8) }, .ok ()) := by
  obtain ⟨hlen, -⟩ := readRange_eq_ok hread
  have hfilter : readFilter file r = .ok (filterBits block, filterHashes block, block) := by
    rw [readFilter, hread, ok_bind, hcrc, ok_bind, if_pos rfl, readLe_of_le (by omega),
      readLe_of_le (by omega)]
    rfl
  rw [loadBloom, hfilter]
  dsimp only
  split
  · rfl
  · rename_i hlayout
    rw [not_or, not_or, not_not] at hlayout
    rw [readAt_of_le (by omega)]

/-- Before the layout is looked at, `load_bloom` fails with `CorruptionDetected` or the block
was read and its checksum matches. -/
theorem loadBloom_cases (file : Bytes) (r : TableReader) (hsize : 24 ≤ r.filterSize)
    (hbuf : r.filterSize < 2 ^ 63) :
    (∃ e, loadBloom file r = (r, .error e) ∧ e.IsCorruption) ∨
      ∃ block, readRange file r.filterOff r.filterSize = .ok block ∧
        crcMatches block r.filterSize = .ok true := by
  rcases hread : readRange file r.filterOff r.filterSize with e | block
  · have he : e.IsCorruption := contained_readRange hbuf (isCorruption_corrupt _ _) e hread
    left
    refine ⟨e, ?_, he⟩
    rw [loadBloom, readFilter, hread, error_bind]
  · obtain ⟨hlen, -⟩ := readRange_eq_ok hread
    rcases hcrc : (crc32 (block.take (r.filterSize - 4)) ==
        leNat ((block.drop (r.filterSize - 4)).take 4)) with _ | _
    · left
      refine ⟨corrupt r.filterOff "filter block checksum mismatch", ?_, rfl⟩
      rw [loadBloom, readFilter, hread, ok_bind, crcMatches_eq hlen (by omega), hcrc]
      rfl
    · right
      exact ⟨block, rfl, by rw [crcMatches_eq hlen (by omega), hcrc]⟩

end TableReader

/-! ## Exact checks -/

/-- The footer and filter checks do what they are for, on any reader of the file. -/
structure MetadataExact (file : Bytes) : Prop where
  footer : ∀ r r' : TableReader, r.loadFooter file = (r', .ok ()) →
    r'.indexOff + r'.indexSize ≤ file.length ∧ r'.filterOff + r'.filterSize ≤ file.length
  footerElse : ∀ (r r' : TableReader) e, r.loadFooter file = (r', .error e) → e.IsCorruption
  bloom : ∀ r r' r'' : TableReader, r.loadFooter file = (r', .ok ()) →
    r'.loadBloom file = (r'', .ok ()) → ∀ key, ∀ bit ∈ Bloom.probes r''.bloomNumBits r''.bloomNumHashes key,
      bit / 8 < r''.bloomBits.length
  bloomElse : ∀ (r r' r'' : TableReader) e, r.loadFooter file = (r', .ok ()) →
    r'.loadBloom file = (r'', .error e) → e.IsCorruption

/-- No 64-bit computation of the checks wraps, and the filter fits a buffer. -/
structure NoWrap (file : Bytes) : Prop where
  index : (footerOf file).indexOff + (footerOf file).indexSize < 2 ^ 64
  filter : (footerOf file).filterOff + (footerOf file).filterSize < 2 ^ 64
  buffer : (footerOf file).filterSize < 2 ^ 63
  bits : (footerOf file).filterOff < 2 ^ 63 → (footerOf file).filterSize = 24 →
    crcMatches (filterOf file) 24 = .ok true → filterHashes (filterOf file) ≠ 0 →
    filterBits (filterOf file) + 7 < 2 ^ 64

section
variable {file : Bytes}

open TableReader

theorem Passes.loaded (h : Passes file) {r r' : TableReader}
    (hload : r.loadFooter file = (r', .ok ())) :
    r' = { withFooter (footerOf file) r with footerLoaded := true } := by
  rw [loadFooter_of_passes h] at hload
  exact (Prod.mk.inj hload).1.symm

theorem passes_of_loadFooter {r r' : TableReader} (h : r.loadFooter file = (r', .ok ())) :
    Passes file := by
  by_contra hne
  obtain ⟨r'', e, he, -⟩ := loadFooter_of_not_passes hne r
  rw [he] at h
  cases (Prod.mk.inj h).2

theorem Passes.length_lt (h : Passes file) : file.length < 2 ^ 64 := by
  have hlong := h.long
  have hseek := h.seekable
  simp only [kFooterSize] at hlong hseek
  omega

theorem Passes.readRange_filter (h : Passes file) (hwrap : NoWrap file)
    (hoff : (footerOf file).filterOff < 2 ^ 63) :
    TableReader.readRange file (footerOf file).filterOff (footerOf file).filterSize =
      .ok (filterOf file) := by
  obtain ⟨-, hfilter, -, -⟩ := outOfRange_eq_false h.inRange
  have hsum := hwrap.filter
  exact readRange_of_le _ hoff hwrap.buffer (by omega)

/-- A filter block that passes the layout check holds a byte for every bit. -/
theorem NoWrap.probe_inside (hwrap : NoWrap file) (h : Passes file) {r r' : TableReader}
    (hoff : r.filterOff = (footerOf file).filterOff)
    (hsize : r.filterSize = (footerOf file).filterSize) (hload : r.loadBloom file = (r', .ok ()))
    (key : Bytes) : ∀ bit ∈ Bloom.probes r'.bloomNumBits r'.bloomNumHashes key,
      bit / 8 < r'.bloomBits.length := by
  obtain ⟨-, -, -, hmin⟩ := outOfRange_eq_false h.inRange
  rcases loadBloom_cases file r (hsize ▸ hmin) (hsize ▸ hwrap.buffer) with
    ⟨e, he, -⟩ | ⟨block, hread, hcrc⟩
  · rw [he] at hload
    cases (Prod.mk.inj hload).2
  rw [loadBloom_of_read hread (hsize ▸ hmin) hcrc] at hload
  split at hload
  · cases (Prod.mk.inj hload).2
  rename_i hlayout
  rw [not_or, not_or, not_not] at hlayout
  obtain ⟨hbits, hhashes, hlayout⟩ := hlayout
  obtain ⟨hlen, -⟩ := readRange_eq_ok hread
  have hbits64 : readLe block 0 8 = some _ := readLe_of_le (by omega)
  have hlt : filterBits block < 2 ^ 64 := (readLe_eq_some hbits64).2
  have hno : filterBits block + 7 < 2 ^ 64 := by
    by_contra hge
    have hzero : (filterBits block + 7) % 2 ^ 64 / 8 = 0 := by omega
    have hoff' : (footerOf file).filterOff < 2 ^ 63 := by
      by_contra hbig
      rw [TableReader.readRange, Sst.readRange, if_neg (by omega), readFile, if_pos (by omega)]
        at hread
      cases hread
    have hsame := h.readRange_filter hwrap hoff'
    rw [← hoff, ← hsize, hread] at hsame
    obtain rfl := Except.ok.inj hsame
    have h24 : r.filterSize = 24 := by omega
    rw [h24] at hcrc
    exact hge (hwrap.bits hoff' (by omega) hcrc hhashes)
  obtain rfl := (Prod.mk.inj hload).1
  have hbytes : ((block.drop 20).take ((filterBits block + 7) % 2 ^ 64 / 8)).length =
      (filterBits block + 7) / 8 := by
    rw [List.length_take, List.length_drop, Nat.mod_eq_of_lt hno]
    rw [Nat.mod_eq_of_lt hno] at hlayout
    omega
  intro bit hbit
  rw [hbytes]
  exact Bloom.probe_div_lt (Nat.pos_of_ne_zero hbits) bit hbit

theorem NoWrap.exact (hwrap : Passes file → NoWrap file) : MetadataExact file where
  footer r r' hload := by
    have h := passes_of_loadFooter hload
    obtain ⟨hindex, hfilter, -, -⟩ := outOfRange_eq_false h.inRange
    have hi := (hwrap h).index
    have hf := (hwrap h).filter
    obtain rfl := h.loaded hload
    simp only [withFooter]
    omega
  footerElse r r' e hload := by
    by_cases h : Passes file
    · rw [loadFooter_of_passes h] at hload
      cases (Prod.mk.inj hload).2
    · obtain ⟨r'', e', he', hcorrupt⟩ := loadFooter_of_not_passes h r
      rw [he'] at hload
      obtain rfl := Except.error.inj (Prod.mk.inj hload).2
      exact hcorrupt
  bloom r r' r'' hload hbloom key := by
    have h := passes_of_loadFooter hload
    obtain rfl := h.loaded hload
    exact (hwrap h).probe_inside h rfl rfl hbloom key
  bloomElse r r' r'' e hload hbloom := by
    have h := passes_of_loadFooter hload
    obtain rfl := h.loaded hload
    obtain ⟨-, -, -, hmin⟩ := outOfRange_eq_false h.inRange
    rcases loadBloom_cases file { withFooter (footerOf file) r with footerLoaded := true }
      hmin (hwrap h).buffer with ⟨e', he', hcorrupt⟩ | ⟨block, hread, hcrc⟩
    · rw [he'] at hbloom
      obtain rfl := Except.error.inj (Prod.mk.inj hbloom).2
      exact hcorrupt
    · rw [loadBloom_of_read hread hmin hcrc] at hbloom
      split at hbloom
      · obtain rfl := Except.error.inj (Prod.mk.inj hbloom).2
        rfl
      · cases (Prod.mk.inj hbloom).2

end

/-- A reader on which nothing is loaded. -/
def unopened : TableReader :=
  { file := none, info := ⟨0, [], [], 0, 0, 0, 0, 0, .ten, 0⟩, cacheIndexBlocks := false }

theorem MetadataExact.noWrap {file : Bytes} (hexact : MetadataExact file) (h : Passes file) :
    NoWrap file := by
  have hload := TableReader.loadFooter_of_passes h unopened
  obtain ⟨hindex, hfilter⟩ := hexact.footer _ _ hload
  obtain ⟨-, -, -, hmin⟩ := outOfRange_eq_false h.inRange
  have hlen := h.length_lt
  simp only [TableReader.withFooter] at hindex hfilter
  have hbuffer : (footerOf file).filterSize < 2 ^ 63 := by
    by_contra hbig
    have hbloom : ∃ r, TableReader.loadBloom file { TableReader.withFooter (footerOf file) unopened
        with footerLoaded := true } = (r, .error .lengthError) := by
      rw [TableReader.loadBloom, TableReader.readFilter, TableReader.readRange, Sst.readRange,
        if_pos (by exact not_lt.mp hbig)]
      exact ⟨_, rfl⟩
    obtain ⟨r, hr⟩ := hbloom
    exact hexact.bloomElse _ _ _ _ hload hr
  refine ⟨by omega, by omega, hbuffer, fun hoff h24 hcrc hhashes => ?_⟩
  by_contra hge
  have hread : TableReader.readRange file (footerOf file).filterOff (footerOf file).filterSize =
      .ok (filterOf file) := readRange_of_le _ hoff hbuffer hfilter
  have hlt : filterBits (filterOf file) < 2 ^ 64 := by
    obtain ⟨hl, -⟩ := readRange_eq_ok hread
    have hbits64 : readLe (filterOf file) 0 8 = some _ := readLe_of_le (by omega)
    exact (readLe_eq_some hbits64).2
  have hzero : (filterBits (filterOf file) + 7) % 2 ^ 64 / 8 = 0 := by omega
  have hbloom := TableReader.loadBloom_of_read (r := { TableReader.withFooter (footerOf file)
    unopened with footerLoaded := true }) hread hmin (by
    show crcMatches _ (footerOf file).filterSize = _
    rw [h24]
    exact hcrc)
  rw [if_neg (by
    rw [hzero]
    simp only [TableReader.withFooter, h24, not_or, not_not]
    exact ⟨by omega, hhashes, trivial⟩), hzero, List.take_zero] at hbloom
  have hmem : Bloom.probe (filterBits (filterOf file)) [] 0 ∈
      Bloom.probes (filterBits (filterOf file)) (filterHashes (filterOf file)) [] :=
    List.mem_map_of_mem (List.mem_range.mpr (Nat.pos_of_ne_zero hhashes))
  exact absurd (hexact.bloom _ _ _ hload hbloom [] _ hmem) (Nat.not_lt_zero _)

/-- The checks are exact on a file if and only if its footer is rejected or none of their
64-bit computations wraps. -/
theorem metadataExact_iff (file : Bytes) :
    MetadataExact file ↔ (Passes file → NoWrap file) :=
  ⟨fun h hpasses => h.noWrap hpasses, NoWrap.exact⟩

/-- A footer alone, whose index would stand at the far end of the address space. -/
def wrappedFooter : Footer := ⟨2 ^ 64 - 4, 4, 0, 24, kVersion, kMagic⟩

theorem footerOf_wrappedFooter : footerOf wrappedFooter.encode = wrappedFooter := by decide

theorem passes_wrappedFooter : Passes wrappedFooter.encode := by
  refine ⟨le_of_eq (length_encode_footer _).symm, ?_, ?_, ?_, ?_⟩
  · rw [length_encode_footer]
    decide
  · rw [footerOf_wrappedFooter]
    rfl
  · rw [footerOf_wrappedFooter]
    rfl
  · rw [footerOf_wrappedFooter, length_encode_footer]
    decide

theorem not_metadataExact_wrappedFooter : ¬MetadataExact wrappedFooter.encode := by
  intro hexact
  have hload := TableReader.loadFooter_of_passes passes_wrappedFooter unopened
  have hindex := (hexact.footer _ _ hload).1
  rw [length_encode_footer] at hindex
  simp only [TableReader.withFooter, footerOf_wrappedFooter] at hindex
  exact absurd hindex (by decide)

end Sst
end LsmKv
