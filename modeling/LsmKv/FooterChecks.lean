import LsmKv.TableGet
import LsmKv.TableMetadata

/-!
# A reader that met a bad footer

`ensure_open` loads the footer only when it has to open the file. A lookup that fails there
leaves the file open, so the next one skips the check unless the descriptor pool has closed the
file in between.
-/

namespace LsmKv
namespace Sst
open TableReader

/-! ## Lookups and evictions -/

/-- What happens to a reader: a lookup on the cache as it is then, or the pool closing its
file. -/
inductive ReaderEvent where
  | get (key : Bytes) (cache : BlockCache)
  | evict

/-- `load_footer` is due when the next lookup opens the file, and fails. -/
def TableReader.FooterFails (r : TableReader) : Prop :=
  r.fileOpen = false ∧ r.footerLoaded = false ∧
    ∃ file ∈ r.file, ∃ e, (r.loadFooter file).2 = .error e

/-- A key outside the table's range never gets as far as the file. -/
def TableReader.InRange (r : TableReader) (key : Bytes) : Prop :=
  ¬(key < r.info.minKey ∨ r.info.maxKey < key)

instance (r : TableReader) (key : Bytes) : Decidable (r.InRange key) :=
  inferInstanceAs (Decidable (¬(_ ∨ _)))

def TableReader.serve (r : TableReader) : ReaderEvent → TableReader
  | .get key cache => (ReadContext.get key ⟨r, cache, {}, {}⟩).1.reader
  | .evict => { r with fileOpen := false }

/-- The event is a lookup that fails in `load_footer`. -/
def TableReader.Rejected (r : TableReader) : ReaderEvent → Prop
  | .get key _ => r.InRange key ∧ r.FooterFails
  | .evict => False

/-- A reader as its constructor leaves it. -/
def TableReader.created (file : Bytes) (info : TableMeta) (cache_index_blocks : Bool) :
    TableReader where
  file := some file
  info := info
  cacheIndexBlocks := cache_index_blocks

/-- A reader as `flush_one` and `run_compaction` make it, or as `open` has validated it, after
some events. The last argument says whether a lookup among them failed in `load_footer`. -/
inductive Serves (file : Bytes) (info : TableMeta) (cache_index_blocks : Bool) :
    TableReader → Prop → Prop
  | created : Serves file info cache_index_blocks (.created file info cache_index_blocks) False
  | validated {r} (h : (created file info cache_index_blocks).validateFooter = (r, .ok ())) :
    Serves file info cache_index_blocks r False
  | event {r rejected} (h : Serves file info cache_index_blocks r rejected) (ev : ReaderEvent) :
    Serves file info cache_index_blocks (r.serve ev) (rejected ∨ r.Rejected ev)

/-- A lookup of a reader fails with `CorruptionDetected` once one has failed in `load_footer`,
and goes on from `ensure_open` to filter, index and blocks only with the footer loaded. -/
structure KeepsRejecting (r : TableReader) (rejected : Prop) (key : Bytes) (cache : BlockCache) :
    Prop where
  fails : rejected → ∃ e, (ReadContext.get key ⟨r, cache, {}, {}⟩).2 = .error e ∧ e.IsCorruption
  checks : ∀ file, r.ensureOpen.2 = .ok file → r.ensureOpen.1.footerLoaded = true

/-! ## What a lookup leaves as it was -/

/-- The same table, the file as open and the footer as loaded as before. -/
structure SameFooter (r r' : TableReader) : Prop where
  file : r'.file = r.file
  info : r'.info = r.info
  fileOpen : r'.fileOpen = r.fileOpen
  footerLoaded : r'.footerLoaded = r.footerLoaded

theorem SameFooter.refl (r : TableReader) : SameFooter r r := ⟨rfl, rfl, rfl, rfl⟩

theorem SameFooter.trans {r r' r'' : TableReader} (h : SameFooter r r') (h' : SameFooter r' r'') :
    SameFooter r r'' :=
  ⟨h'.file.trans h.file, h'.info.trans h.info, h'.fileOpen.trans h.fileOpen,
    h'.footerLoaded.trans h.footerLoaded⟩

theorem sameFooter_loadBloom (file : Bytes) (r : TableReader) :
    SameFooter r (r.loadBloom file).1 := by
  rw [loadBloom]
  split
  · exact .refl r
  dsimp only
  split
  · exact ⟨rfl, rfl, rfl, rfl⟩
  · split <;> exact ⟨rfl, rfl, rfl, rfl⟩

theorem sameFooter_currentBloom (file : Bytes) (r : TableReader) :
    SameFooter r (ReadContext.currentBloom file r).1 := by
  rw [ReadContext.currentBloom]
  split
  · exact sameFooter_loadBloom file r
  · exact .refl r

theorem sameFooter_currentIndex (file : Bytes) (r : TableReader) :
    SameFooter r (ReadContext.currentIndex file r).1 := by
  rw [ReadContext.currentIndex]
  split
  · split
    · exact .refl r
    · split <;> exact ⟨rfl, rfl, rfl, rfl⟩
  · exact .refl r

theorem fetchBlock_reader (file : Bytes) (e : IndexEntry) (c : ReadContext) :
    (ReadContext.fetchBlock file e c).1.reader = c.reader := by
  rw [ReadContext.fetchBlock]
  split
  · rfl
  dsimp only
  split
  · rfl
  split
  · rfl
  split <;> rfl

theorem sameFooter_searchBloom (file key : Bytes) (c : ReadContext) :
    SameFooter c.reader (ReadContext.searchBloom file key c).1.reader := by
  have hbloom := sameFooter_currentBloom file c.reader
  rw [ReadContext.searchBloom]
  rcases hload : ReadContext.currentBloom file c.reader with ⟨r, e | u⟩
  · rw [hload] at hbloom
    exact hbloom
  rw [hload] at hbloom
  dsimp only
  rcases r.bloomMayContain key with _ | _ | _
  · exact hbloom
  · exact hbloom
  have hindex := sameFooter_currentIndex file r
  rw [ReadContext.searchIndex]
  rcases hcur : ReadContext.currentIndex file r with ⟨r', e | index⟩
  · rw [hcur] at hindex
    exact hbloom.trans hindex
  rw [hcur] at hindex
  dsimp only
  rcases ReadContext.lastNotAbove index key with _ | x
  · exact hbloom.trans hindex
  dsimp only
  have hfetch := fetchBlock_reader file x { c with
    reader := r'
    stats := { c.stats with bloomsChecked := c.stats.bloomsChecked + 1 } }
  rcases hblock : ReadContext.fetchBlock file x { c with
    reader := r'
    stats := { c.stats with bloomsChecked := c.stats.bloomsChecked + 1 } } with ⟨c', e | block⟩ <;>
    rw [hblock] at hfetch <;> rw [show c'.reader = r' from hfetch] <;> exact hbloom.trans hindex

/-- `load_footer` sets the flag when it succeeds and not before. -/
theorem loadFooter_leaves (file : Bytes) (r : TableReader) :
    (∃ r', r.loadFooter file = (r', .ok ()) ∧ SameFooter { r with footerLoaded := true } r' ∧
      Passes file) ∨
    ∃ r' e, r.loadFooter file = (r', .error e) ∧ e.IsCorruption ∧ SameFooter r r' ∧
      ¬Passes file := by
  by_cases hp : Passes file
  · exact .inl ⟨_, loadFooter_of_passes hp r, ⟨rfl, rfl, rfl, rfl⟩, hp⟩
  · obtain ⟨r', e, hload, hcorrupt⟩ := loadFooter_of_not_passes hp r
    refine .inr ⟨r', e, hload, hcorrupt, ?_, hp⟩
    rw [show r' = (r.loadFooter file).1 from (congrArg Prod.fst hload).symm]
    rw [loadFooter] at hload ⊢
    split
    · exact .refl r
    rename_i hlong
    rw [if_neg hlong] at hload
    split at hload
    · exact .refl r
    dsimp only at hload ⊢
    split
    · exact .refl r
    rename_i hmagic
    rw [if_neg hmagic] at hload
    split
    · exact .refl r
    rename_i hversion
    rw [if_neg hversion] at hload
    split
    · exact ⟨rfl, rfl, rfl, rfl⟩
    · rename_i hrange
      rw [if_neg hrange] at hload
      cases hload

/-! ## Readers in service -/

/-- The footer of the file decides whether `load_footer` fails. -/
structure Footed (file : Bytes) (info : TableMeta) (r : TableReader) (rejected : Prop) : Prop where
  content : r.file = some file
  table : r.info = info
  loaded : r.footerLoaded = true → Passes file
  fails : rejected → ¬Passes file

section
variable {file : Bytes} {info : TableMeta} {r : TableReader} {rejected : Prop}

theorem footed_of_sameFooter (h : Footed file info r rejected) {r' : TableReader}
    (hs : SameFooter r r') : Footed file info r' rejected :=
  ⟨hs.file.trans h.content, hs.info.trans h.table, fun hl => h.loaded (hs.footerLoaded ▸ hl),
    h.fails⟩

theorem Footed.ensureOpen_due (h : Footed file info r rejected) (hopen : ¬r.fileOpen = true)
    (hloaded : ¬r.footerLoaded = true) :
    r.ensureOpen = match loadFooter file { r with fileOpen := true } with
      | (r, .error e) => (r, .error e)
      | (r, .ok _) => (r, .ok file) := by
  rw [ensureOpen, if_neg hopen, h.content]
  exact if_neg hloaded

/-- `ensure_open` goes on without a check, with a check that passes, or fails. -/
theorem Footed.ensureOpen_cases (h : Footed file info r rejected) :
    (r.ensureOpen = ({ r with fileOpen := true }, .ok file) ∧
      (r.fileOpen = true ∨ r.footerLoaded = true)) ∨
    (∃ r', r.ensureOpen = (r', .ok file) ∧ Footed file info r' rejected ∧
      r'.footerLoaded = true ∧ r.fileOpen = false) ∨
    ∃ r' e, r.ensureOpen = (r', .error e) ∧ e.IsCorruption ∧ Footed file info r' True ∧
      r.FooterFails := by
  by_cases hopen : r.fileOpen = true
  · refine .inl ⟨?_, .inl hopen⟩
    have hself : { r with fileOpen := true } = r := by
      rw [← hopen]
    rw [hself, ensureOpen, if_pos hopen, h.content, Option.getD_some]
  by_cases hloaded : r.footerLoaded = true
  · refine .inl ⟨?_, .inr hloaded⟩
    rw [ensureOpen, if_neg hopen, h.content]
    exact if_pos hloaded
  have hdue := h.ensureOpen_due hopen hloaded
  have hstart : Footed file info { r with fileOpen := true } rejected :=
    ⟨h.content, h.table, h.loaded, h.fails⟩
  rcases loadFooter_leaves file { r with fileOpen := true } with
    ⟨r', hload, hsame, hp⟩ | ⟨r', e, hload, hcorrupt, hsame, hp⟩
  · refine .inr (.inl ⟨r', by rw [hdue, hload], ?_, hsame.footerLoaded, by simpa using hopen⟩)
    exact ⟨hsame.file.trans h.content, hsame.info.trans h.table, fun _ => hp, h.fails⟩
  · refine .inr (.inr ⟨r', e, by rw [hdue, hload], hcorrupt, ?_, ?_⟩)
    · have hfooted := footed_of_sameFooter hstart hsame
      exact ⟨hfooted.content, hfooted.table, hfooted.loaded, fun _ => hp⟩
    · obtain ⟨r'', e', hfail, -⟩ := loadFooter_of_not_passes hp r
      exact ⟨by simpa using hopen, by simpa using hloaded, file, h.content, e', by rw [hfail]⟩

theorem Footed.not_passes (h : Footed file info r rejected) (hf : r.FooterFails) :
    ¬Passes file := by
  obtain ⟨-, -, content, hcontent, e, hfail⟩ := hf
  obtain rfl := Option.some.inj (h.content.symm.trans hcontent)
  intro hp
  rw [loadFooter_of_passes hp] at hfail
  cases hfail

theorem Footed.serve (h : Footed file info r rejected) (ev : ReaderEvent) :
    Footed file info (r.serve ev) (rejected ∨ r.Rejected ev) := by
  have hfails : rejected ∨ r.Rejected ev → ¬Passes file := by
    rintro (hrej | hrej)
    · exact h.fails hrej
    · cases ev with
      | get key cache => exact h.not_passes hrej.2
      | evict => exact hrej.elim
  suffices hfooted : Footed file info (r.serve ev) rejected from
    ⟨hfooted.content, hfooted.table, hfooted.loaded, hfails⟩
  cases ev with
  | evict => exact ⟨h.content, h.table, h.loaded, h.fails⟩
  | get key cache =>
    show Footed file info (ReadContext.get key ⟨r, cache, {}, {}⟩).1.reader rejected
    rw [ReadContext.get]
    split
    · exact h
    dsimp only
    rcases h.ensureOpen_cases with ⟨heq, -⟩ | ⟨r', heq, hr', -⟩ | ⟨r', e, heq, -, hr', -⟩ <;>
      simp only [heq]
    · have hsame := sameFooter_searchBloom file key ⟨{ r with fileOpen := true }, cache, {}, {}⟩
      have hopened : Footed file info { r with fileOpen := true } rejected :=
        ⟨h.content, h.table, h.loaded, h.fails⟩
      exact footed_of_sameFooter hopened hsame
    · exact footed_of_sameFooter hr' (sameFooter_searchBloom file key ⟨r', cache, {}, {}⟩)
    · exact ⟨hr'.content, hr'.table, hr'.loaded, h.fails⟩

theorem Serves.footed {cache_index_blocks : Bool}
    (h : Serves file info cache_index_blocks r rejected) : Footed file info r rejected := by
  induction h with
  | created => exact ⟨rfl, rfl, nofun, False.elim⟩
  | validated h =>
    rename_i r
    have hload : loadFooter file (TableReader.created file info cache_index_blocks) =
      (r, .ok ()) := h
    rcases loadFooter_leaves file (TableReader.created file info cache_index_blocks) with
      ⟨r', hr', hsame, hp⟩ | ⟨r', e, hr', -⟩
    · obtain rfl := (Prod.mk.inj (hr'.symm.trans hload)).1
      exact ⟨hsame.file, hsame.info, fun _ => hp, False.elim⟩
    · exact nomatch (Prod.mk.inj (hr'.symm.trans hload)).2
  | event _ ev ih => exact ih.serve ev

/-- Any lookup in any life of a reader keeps to the check if and only if it does not find the
file open without a footer. -/
theorem keepsRejecting_iff {cache_index_blocks : Bool}
    (h : Serves file info cache_index_blocks r rejected) {key : Bytes} (hkey : r.InRange key)
    (cache : BlockCache) :
    KeepsRejecting r rejected key cache ↔ (r.fileOpen = true → r.footerLoaded = true) := by
  have hf := h.footed
  constructor
  · intro hk hopen
    rcases hf.ensureOpen_cases with ⟨heq, -⟩ | ⟨r', -, -, -, hclosed⟩ | ⟨-, -, -, -, -, hfails⟩
    · have hloaded := hk.checks file (by rw [heq])
      rwa [heq] at hloaded
    · exact absurd hopen (by rw [hclosed]; decide)
    · exact absurd hopen (by rw [hfails.1]; decide)
  · intro hcond
    have hget : ∀ r' e, r.ensureOpen = (r', .error e) →
        (ReadContext.get key ⟨r, cache, {}, {}⟩).2 = .error e := by
      intro r' e heq
      rw [ReadContext.get, if_neg hkey]
      simp only [heq]
    rcases hf.ensureOpen_cases with ⟨heq, hskip⟩ | ⟨r', heq, hr', hloaded, -⟩ |
      ⟨r', e, heq, hcorrupt, -, -⟩
    · have hloaded : r.footerLoaded = true := hskip.elim hcond id
      refine ⟨fun hrej => absurd (hf.loaded hloaded) (hf.fails hrej), fun _ _ => ?_⟩
      rw [heq]
      exact hloaded
    · refine ⟨fun hrej => absurd (hr'.loaded hloaded) (hf.fails hrej), fun _ _ => ?_⟩
      rw [heq]
      exact hloaded
    · refine ⟨fun _ => ⟨e, hget r' e heq, hcorrupt⟩, fun content hok => ?_⟩
      rw [heq] at hok
      cases hok

end

/-- A filter for no key, and a footer that is right but for an index past the end. -/
def badIndexFile : Bytes :=
  filterBlock ⟨4096, 16, 8, 1, .ten⟩ 0 [0] ++
    ({ footer 100 100 25 with filterOff := 0 } : Footer).encode

/-- A table of the one key `[97]`. -/
def badIndexInfo : TableMeta := ⟨1, [97], [97], 1, 1, 0, badIndexFile.length, 1, .ten, 1⟩

/-- The reader after its first lookup, which the footer made fail. -/
def badIndexReader : TableReader :=
  (TableReader.created badIndexFile badIndexInfo false).serve (.get [97] ⟨0, [], [], 0⟩)

theorem serves_badIndexReader : ∃ rejected, rejected ∧
    Serves badIndexFile badIndexInfo false badIndexReader rejected := by
  refine ⟨_, .inr ⟨by decide, rfl, rfl, badIndexFile, rfl,
    corrupt 25 "footer offsets out of range", ?_⟩, .event .created _⟩
  decide +kernel

/-- Once the pool has closed the file, the next lookup is rejected again. -/
theorem keepsRejecting_evicted : ∃ rejected : Prop, rejected ∧
    KeepsRejecting (badIndexReader.serve .evict) rejected [97] ⟨0, [], [], 0⟩ := by
  obtain ⟨rejected, hrej, hserves⟩ := serves_badIndexReader
  exact ⟨_, .inl hrej, (keepsRejecting_iff (hserves.event .evict) (by decide +kernel) _).mpr
    (by decide +kernel)⟩

/-- As long as the file stays open, it says instead that the key is not there. -/
theorem not_keepsRejecting_badIndex : ∃ rejected : Prop, rejected ∧
    Serves badIndexFile badIndexInfo false badIndexReader rejected ∧
    badIndexReader.InRange [97] ∧
    (ReadContext.get [97] ⟨badIndexReader, ⟨0, [], [], 0⟩, {}, {}⟩).2 = .ok none ∧
    ¬KeepsRejecting badIndexReader rejected [97] ⟨0, [], [], 0⟩ := by
  have hnone : (ReadContext.get [97] ⟨badIndexReader, ⟨0, [], [], 0⟩, {}, {}⟩).2 = .ok none := by
    decide +kernel
  obtain ⟨rejected, hrej, hserves⟩ := serves_badIndexReader
  refine ⟨rejected, hrej, hserves, by decide +kernel, hnone, fun hk => ?_⟩
  obtain ⟨e, he, -⟩ := hk.fails hrej
  rw [hnone] at he
  cases he

end Sst
end LsmKv
