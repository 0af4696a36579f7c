import LsmKv.SstLayout
import LsmKv.SstReader
import Mathlib.Algebra.BigOperators.Group.List.Basic
import Mathlib.Order.Bounds.Basic

/-!
# The readers accept what the writer publishes

`Table` says which rows a file holds and where; every reader's result on such a file is read
off the groups. The writer's file is one.
-/

namespace LsmKv
namespace Sst

/-- A file made of the given groups, each with its block, and the sections that follow them. A
block may be longer than its index entry can say. -/
structure Laid (cfg : SstConfig) (file : Bytes) (groups : List (List Entry)) (num_keys : ℕ)
    (bits : Bytes) : Prop where
  shape : file = (groups.map (groupBytes cfg.restartInterval)).flatten ++
    tail cfg num_keys (dataLen cfg.restartInterval groups)
      (indexFrom cfg.restartInterval 0 groups) bits
  nonempty : ∀ g ∈ groups, g ≠ []
  keys : ∀ g ∈ groups, ∀ e ∈ g, e.1.length < 2 ^ 32
  size : file.length < 2 ^ 63

/-- A file with the given groups as its data blocks and everything in range. -/
structure Table (cfg : SstConfig) (file : Bytes) (groups : List (List Entry)) (num_keys : ℕ)
    (bits : Bytes) : Prop where
  shape : file = (groups.map (groupBytes cfg.restartInterval)).flatten ++
    tail cfg num_keys (dataLen cfg.restartInterval groups)
      (indexFrom cfg.restartInterval 0 groups) bits
  nonempty : ∀ g ∈ groups, g ≠ []
  rows : ∀ g ∈ groups, ∀ e ∈ g, EntryFits e
  small : ∀ g ∈ groups, (groupBytes cfg.restartInterval g).length < 2 ^ 32
  size : file.length < 2 ^ 63
  numBits : cfg.numBits < 2 ^ 64
  numHashes : cfg.numHashes < 2 ^ 32
  numKeys : num_keys < 2 ^ 64

section
variable {cfg : SstConfig} {file bits : Bytes} {groups : List (List Entry)} {num_keys : ℕ}

theorem Table.laid (h : Table cfg file groups num_keys bits) :
    Laid cfg file groups num_keys bits :=
  ⟨h.shape, h.nonempty, fun g hg e he => (h.rows g hg e he).key, h.size⟩

/-! ## Where the sections stand -/

def tableIndex (cfg : SstConfig) (groups : List (List Entry)) : Bytes :=
  indexBlock (indexFrom cfg.restartInterval 0 groups)

def tableFooter (cfg : SstConfig) (groups : List (List Entry)) (num_keys : ℕ) (bits : Bytes) :
    Footer :=
  footer (dataLen cfg.restartInterval groups) (tableIndex cfg groups).length
    (filterBlock cfg num_keys bits).length

theorem length_flatten_groups (ri : ℕ) (groups : List (List Entry)) :
    (groups.map (groupBytes ri)).flatten.length = dataLen ri groups := by
  rw [List.length_flatten, List.map_map]
  rfl

theorem Laid.hasAt_tail (h : Laid cfg file groups num_keys bits) :
    HasAt file (dataLen cfg.restartInterval groups)
      (tableIndex cfg groups ++ (filterBlock cfg num_keys bits ++
        (tableFooter cfg groups num_keys bits).encode)) :=
  ⟨_, [], by rw [List.append_nil]; exact h.shape, length_flatten_groups _ _⟩

theorem Laid.hasAt_index (h : Laid cfg file groups num_keys bits) :
    HasAt file (tableFooter cfg groups num_keys bits).indexOff (tableIndex cfg groups) :=
  h.hasAt_tail.left

theorem Table.hasAt_filter (h : Table cfg file groups num_keys bits) :
    HasAt file (tableFooter cfg groups num_keys bits).filterOff
      (filterBlock cfg num_keys bits) := h.laid.hasAt_tail.right.left

theorem Laid.read_index (h : Laid cfg file groups num_keys bits) (short : Fault) :
    readRange file (tableFooter cfg groups num_keys bits).indexOff
      (tableFooter cfg groups num_keys bits).indexSize short = .ok (tableIndex cfg groups) :=
  readRange_of_hasAt h.hasAt_index rfl h.size

theorem Table.read_filter (h : Table cfg file groups num_keys bits) (short : Fault) :
    readRange file (tableFooter cfg groups num_keys bits).filterOff
      (tableFooter cfg groups num_keys bits).filterSize short =
        .ok (filterBlock cfg num_keys bits) :=
  readRange_of_hasAt h.hasAt_filter rfl h.size

theorem Laid.length_file (h : Laid cfg file groups num_keys bits) :
    file.length = dataLen cfg.restartInterval groups + (tableIndex cfg groups).length +
      (filterBlock cfg num_keys bits).length + kFooterSize := by
  have hlen := congrArg List.length h.shape
  rw [hlen, List.length_append, length_flatten_groups]
  simp only [tail, tableIndex, List.length_append, length_encode_footer]
  omega

theorem Laid.hasAt_footer (h : Laid cfg file groups num_keys bits) :
    HasAt file (file.length - kFooterSize) (tableFooter cfg groups num_keys bits).encode := by
  have hlen := h.length_file
  have hat := h.hasAt_tail.right.right
  have hoff : dataLen cfg.restartInterval groups + (tableIndex cfg groups).length +
      (filterBlock cfg num_keys bits).length = file.length - kFooterSize := by omega
  rwa [hoff] at hat

theorem Laid.hasAt_block (h : Laid cfg file groups num_keys bits) {p : ℕ × List Entry}
    (hp : p ∈ placed cfg.restartInterval 0 groups) :
    HasAt file p.1 (groupBytes cfg.restartInterval p.2) := by
  have hat := hasAt_placed hp (rfl : ([] : Bytes).length = 0) (tail cfg num_keys
    (dataLen cfg.restartInterval groups) (indexFrom cfg.restartInterval 0 groups) bits)
  rw [List.nil_append, ← h.shape] at hat
  exact hat

theorem mem_groups {p : ℕ × List Entry}
    (hp : p ∈ placed cfg.restartInterval 0 groups) : p.2 ∈ groups := by
  rw [← map_snd_placed cfg.restartInterval 0 groups]
  exact List.mem_map_of_mem hp

/-! ## The footer -/

theorem length_indexBlock (index : List IndexEntry) :
    (indexBlock index).length = (index.map indexEntryLen).sum + 4 := by
  simp [indexBlock, List.length_flatMap]

theorem length_filterBlock (cfg : SstConfig) (num_keys : ℕ) (bits : Bytes) :
    (filterBlock cfg num_keys bits).length = 24 + bits.length := by
  simp [filterBlock]
  omega

theorem Laid.decode_footer (h : Laid cfg file groups num_keys bits) :
    Footer.decode (tableFooter cfg groups num_keys bits).encode =
      tableFooter cfg groups num_keys bits := by
  have hlen := h.length_file
  have hsize := h.size
  apply decode_encode_footer
  · show dataLen cfg.restartInterval groups < _
    omega
  · show (tableIndex cfg groups).length < _
    omega
  · show dataLen cfg.restartInterval groups + (tableIndex cfg groups).length < _
    omega
  · show (filterBlock cfg num_keys bits).length < _
    omega
  · show kVersion < _
    decide
  · show kMagic < _
    decide

theorem Laid.not_outOfRange (h : Laid cfg file groups num_keys bits) {min_filter : ℕ}
    (hmin : min_filter ≤ 24) :
    (tableFooter cfg groups num_keys bits).outOfRange file.length min_filter = false := by
  have hlen := h.length_file
  have hsize := h.size
  have hindex : 4 ≤ (tableIndex cfg groups).length := by
    rw [tableIndex, length_indexBlock]
    omega
  have hfilter := length_filterBlock cfg num_keys bits
  have hio : (tableFooter cfg groups num_keys bits).indexOff +
      (tableFooter cfg groups num_keys bits).indexSize =
        dataLen cfg.restartInterval groups + (tableIndex cfg groups).length := rfl
  have hfo : (tableFooter cfg groups num_keys bits).filterOff +
      (tableFooter cfg groups num_keys bits).filterSize =
        dataLen cfg.restartInterval groups + (tableIndex cfg groups).length +
          (filterBlock cfg num_keys bits).length := rfl
  have his : (tableFooter cfg groups num_keys bits).indexSize = (tableIndex cfg groups).length :=
    rfl
  have hfs : (tableFooter cfg groups num_keys bits).filterSize =
    (filterBlock cfg num_keys bits).length := rfl
  rw [Footer.outOfRange, hio, hfo, his, hfs, Nat.mod_eq_of_lt (by omega),
    Nat.mod_eq_of_lt (by omega)]
  simp only [Bool.or_eq_false_iff, decide_eq_false_iff_not]
  omega

theorem Laid.footer_le (h : Laid cfg file groups num_keys bits) :
    ¬file.length < kFooterSize := by
  have := h.length_file
  omega

theorem Table.inspectFooter (h : Table cfg file groups num_keys bits) :
    Sst.inspectFooter file = .ok (tableFooter cfg groups num_keys bits) := by
  rw [Sst.inspectFooter, if_neg h.laid.footer_le, inspectRead,
    readRange_of_hasAt h.laid.hasAt_footer (length_encode_footer _).symm h.size]
  simp only [ok_bind, h.laid.decode_footer, h.laid.not_outOfRange le_rfl]
  rfl

theorem Table.verifyFooter (h : Table cfg file groups num_keys bits) :
    Sst.verifyFooter file = .ok (tableFooter cfg groups num_keys bits) := by
  have hlen := h.size
  have hsmall : ¬2 ^ 63 ≤ kFooterSize := by decide
  rw [Sst.verifyFooter, if_neg h.laid.footer_le, verifyRead, if_neg hsmall,
    readFile_of_hasAt h.laid.hasAt_footer (length_encode_footer _).symm (by omega)]
  simp only [demand_some, ok_bind, h.laid.decode_footer, h.laid.not_outOfRange (by omega : 4 ≤ 24)]
  rfl

/-! ## The index -/

/-- What a reader finds at the position of an index entry. -/
structure IndexAt (block : Bytes) (stop pos : ℕ) (x : IndexEntry) : Prop where
  keyLen : readLe block pos 4 = some x.firstKey.length
  key : readAt block (pos + 4) x.firstKey.length = some x.firstKey
  offset : readLe block (pos + 4 + x.firstKey.length) 8 = some x.offset
  blockSize : readLe block (pos + 4 + x.firstKey.length + 8) 4 = some x.size
  within : pos + indexEntryLen x ≤ stop

/-- An index entry whose fields fit their widths. -/
structure IndexEntryFits (x : IndexEntry) : Prop where
  key : x.firstKey.length < 2 ^ 32
  offset : x.offset < 2 ^ 64
  size : x.size < 2 ^ 32

theorem indexAt_of_split {index pre post : List IndexEntry} {x : IndexEntry}
    (hsplit : index = pre ++ x :: post) (hfit : IndexEntryFits x) :
    IndexAt (indexBlock index) ((indexBlock index).length - 4) (pre.map indexEntryLen).sum x := by
  have hat : HasAt (indexBlock index) (pre.map indexEntryLen).sum (encodeIndexEntry x) := by
    have hitem := hasAt_flatMap encodeIndexEntry pre x post
    simp only [length_encodeIndexEntry, ← hsplit] at hitem
    exact hitem.append_right _
  have hlen : (pre.map indexEntryLen).sum + indexEntryLen x ≤ (index.map indexEntryLen).sum := by
    rw [hsplit, List.map_append, List.sum_append, List.map_cons, List.sum_cons]
    omega
  have hkey := hat.right
  have hoff := hkey.right
  have hsize := hoff.right
  rw [length_putU32] at hkey hoff hsize
  rw [length_putU64] at hsize
  refine ⟨hat.left.readLe hfit.key, hkey.left.readAt rfl, hoff.left.readLe hfit.offset,
    hsize.readLe hfit.size, ?_⟩
  rw [length_indexBlock]
  omega

theorem Laid.indexEntryFits (h : Laid cfg file groups num_keys bits) {p : ℕ × List Entry}
    (hp : p ∈ placed cfg.restartInterval 0 groups) :
    IndexEntryFits (indexEntryOf cfg.restartInterval p.1 p.2) := by
  have hmem := mem_groups hp
  refine ⟨?_, ?_, Nat.mod_lt _ (by norm_num)⟩
  · show (firstKeyOf p.2).length < _
    obtain ⟨e, es, he⟩ := List.exists_cons_of_ne_nil (h.nonempty p.2 hmem)
    rw [he]
    exact h.keys p.2 hmem e (by rw [he]; exact List.mem_cons_self)
  · have hle := (h.hasAt_block hp).le
    have := h.size
    show p.1 < _
    omega

/-- Walking the index of a table, one block at a time. -/
theorem Laid.walk_index {ε σ : Type} (h : Laid cfg file groups num_keys bits)
    {step : σ → ℕ → Except ε (σ × ℕ)} {f : σ → ℕ × List Entry → σ}
    (hstep : ∀ s pos p, p ∈ placed cfg.restartInterval 0 groups →
      IndexAt (tableIndex cfg groups) ((tableIndex cfg groups).length - 4) pos
        (indexEntryOf cfg.restartInterval p.1 p.2) →
      step s pos = .ok (f s p, pos + indexEntryLen (indexEntryOf cfg.restartInterval p.1 p.2)))
    (s : σ) :
    walk step ((tableIndex cfg groups).length - 4) (tableIndex cfg groups).length s 0 =
      .ok ((placed cfg.restartInterval 0 groups).foldl f s) := by
  set size : ℕ × List Entry → ℕ :=
    fun p => indexEntryLen (indexEntryOf cfg.restartInterval p.1 p.2) with hdef
  have hpos : ∀ p, 1 ≤ size p := fun p => by
    simp only [hdef, indexEntryLen]
    omega
  have hlen := length_indexBlock (indexFrom cfg.restartInterval 0 groups)
  have hsum : ((placed cfg.restartInterval 0 groups).map size).sum =
      (tableIndex cfg groups).length - 4 := by
    rw [tableIndex, hlen, Nat.add_sub_cancel, indexFrom, List.map_map]
    rfl
  have hcount := List.length_le_sum_of_one_le
    ((placed cfg.restartInterval 0 groups).map size) (fun n hn => by
      obtain ⟨p, -, rfl⟩ := List.mem_map.mp hn
      exact hpos p)
  rw [List.length_map] at hcount
  refine walk_items (fun p _ => hpos p) (by omega) (by omega) (fun s pre p post hsplit => ?_)
  have hmem : p ∈ placed cfg.restartInterval 0 groups := by rw [hsplit]; simp
  rw [Nat.zero_add]
  refine hstep s _ p hmem ?_
  have hix : indexFrom cfg.restartInterval 0 groups =
      pre.map (fun p => indexEntryOf cfg.restartInterval p.1 p.2) ++
        indexEntryOf cfg.restartInterval p.1 p.2 ::
          post.map (fun p => indexEntryOf cfg.restartInterval p.1 p.2) := by
    rw [indexFrom, hsplit, List.map_append, List.map_cons]
  have hat := indexAt_of_split hix (h.indexEntryFits hmem)
  rw [List.map_map] at hat
  exact hat

/-- The 32-bit sums by which two of the walks move on do not wrap at this entry. -/
def IndexEntry.Short (x : IndexEntry) : Prop := x.firstKey.length + 8 < 2 ^ 32

theorem inspectStep_of_indexAt {block : Bytes} {stop pos : ℕ} {x : IndexEntry}
    (h : IndexAt block stop pos x) (hshort : x.Short) (info : SstInfo) :
    inspectStep block stop info pos = .ok (info.countBlock x.size, pos + indexEntryLen x) := by
  have hwithin := h.within
  rw [indexEntryLen] at hwithin
  rw [inspectStep, if_neg (by omega), h.keyLen]
  simp only [demand_some, ok_bind]
  rw [if_neg (by omega), Nat.mod_eq_of_lt hshort, ← Nat.add_assoc (pos + 4), h.blockSize]
  simp only [demand_some, ok_bind, indexEntryLen, Nat.add_assoc]

/-- A key in a block of fewer than 2^32 bytes. -/
theorem Table.short (h : Table cfg file groups num_keys bits) {p : ℕ × List Entry}
    (hp : p ∈ placed cfg.restartInterval 0 groups) :
    (indexEntryOf cfg.restartInterval p.1 p.2).Short := by
  have hmem := mem_groups hp
  have hsmall := h.small p.2 hmem
  obtain ⟨e, es, he⟩ := List.exists_cons_of_ne_nil (h.nonempty p.2 hmem)
  have hlen : (firstKeyOf p.2).length + kEntryHeader ≤ (p.2.flatMap encodeEntry).length := by
    rw [he, length_flatMap_encodeEntry, rowsLen, List.map_cons, List.sum_cons, entryLen]
    show e.1.length + kEntryHeader ≤ _
    omega
  rw [groupBytes, blockBytes, length_withCrc, List.length_append] at hsmall
  rw [kEntryHeader] at hlen
  show (firstKeyOf p.2).length + 8 < 2 ^ 32
  omega

/-- Taking blocks into the overview counts them and touches nothing but their statistics. -/
theorem foldl_countBlock {α : Type} (size : α → ℕ) (ps : List α) (info : SstInfo) :
    ∃ lo hi, ps.foldl (fun info p => info.countBlock (size p)) info =
      { info with dataBlocks := info.dataBlocks + ps.length, blockMin := lo, blockMax := hi } := by
  induction ps generalizing info with
  | nil => exact ⟨_, _, rfl⟩
  | cons p ps ih =>
    obtain ⟨lo, hi, h⟩ := ih (info.countBlock (size p))
    refine ⟨lo, hi, ?_⟩
    rw [List.foldl_cons, h, List.length_cons, Nat.add_comm ps.length, ← Nat.add_assoc]
    rfl

theorem length_placed (ri off : ℕ) (gs : List (List Entry)) :
    (placed ri off gs).length = gs.length := by
  rw [← List.length_map Prod.snd, map_snd_placed]

theorem Table.inspectIndex (h : Table cfg file groups num_keys bits) :
    ∃ info, Sst.inspectIndex file (tableFooter cfg groups num_keys bits) = .ok info ∧
      info.dataBlocks = groups.length ∧ info.indexOff = dataLen cfg.restartInterval groups ∧
      info.indexSize = (tableIndex cfg groups).length := by
  have hwalk := h.laid.walk_index (fun s pos p hp hat => inspectStep_of_indexAt hat (h.short hp) s)
    ⟨file.length, kVersion, dataLen cfg.restartInterval groups, (tableIndex cfg groups).length,
      dataLen cfg.restartInterval groups + (tableIndex cfg groups).length,
      (filterBlock cfg num_keys bits).length, 0, 0, 0, 0, 0, 0⟩
  obtain ⟨lo, hi, hfold⟩ := foldl_countBlock
    (fun p : ℕ × List Entry => (indexEntryOf cfg.restartInterval p.1 p.2).size)
    (placed cfg.restartInterval 0 groups) _
  rw [hfold, length_placed, Nat.zero_add] at hwalk
  have hcrc : crcMatches (tableIndex cfg groups)
      (tableFooter cfg groups num_keys bits).indexSize = .ok true := crcMatches_withCrc _
  rw [Sst.inspectIndex, inspectRead, h.laid.read_index, ok_bind, hcrc]
  exact ⟨_, hwalk, rfl, rfl, rfl⟩

/-- What a reader finds in the filter block. -/
theorem Table.filter_fields (h : Table cfg file groups num_keys bits) :
    readLe (filterBlock cfg num_keys bits) 0 8 = some cfg.numBits ∧
      readLe (filterBlock cfg num_keys bits) 8 4 = some cfg.numHashes ∧
      readLe (filterBlock cfg num_keys bits) 12 8 = some num_keys ∧
      HasAt (filterBlock cfg num_keys bits) 20 bits := by
  have hbody : HasAt (filterBlock cfg num_keys bits) 0
      (putU64 cfg.numBits ++ (putU32 cfg.numHashes ++ (putU64 num_keys ++ bits))) :=
    ⟨[], putU32 _, rfl, rfl⟩
  exact ⟨hbody.left.readLe h.numBits, hbody.right.left.readLe h.numHashes,
    hbody.right.right.left.readLe h.numKeys, hbody.right.right.right⟩

theorem Table.inspectFilter (h : Table cfg file groups num_keys bits) (info : SstInfo) :
    Sst.inspectFilter file (tableFooter cfg groups num_keys bits) info =
      .ok { info with
        bloomBits := cfg.numBits, bloomHashes := cfg.numHashes, bloomKeys := num_keys } := by
  obtain ⟨hbits, hhashes, hkeys, -⟩ := h.filter_fields
  have hcrc : crcMatches (filterBlock cfg num_keys bits)
      (tableFooter cfg groups num_keys bits).filterSize = .ok true := crcMatches_withCrc _
  rw [Sst.inspectFilter, inspectRead, h.read_filter, ok_bind, hcrc,
    ok_bind, if_pos rfl, hbits, hhashes, hkeys]
  rfl

theorem Table.inspect (h : Table cfg file groups num_keys bits) :
    ∃ info, inspectSstable (some file) = .ok info ∧ info.dataBlocks = groups.length ∧
      info.indexOff = dataLen cfg.restartInterval groups ∧
      info.indexSize = (tableIndex cfg groups).length := by
  obtain ⟨info, hindex, hblocks, hoff, hsize⟩ := h.inspectIndex
  have hfilter := h.inspectFilter info
  refine ⟨{ info with
    bloomBits := cfg.numBits, bloomHashes := cfg.numHashes, bloomKeys := num_keys }, ?_,
    hblocks, hoff, hsize⟩
  simp only [inspectSstable, h.inspectFooter, hindex, ok_bind]
  exact hfilter

/-! ## The data blocks -/

theorem length_groupBytes (ri : ℕ) (g : List Entry) :
    (groupBytes ri g).length = rowsLen g + 4 * (restartsOf ri g).length + 8 := by
  have hrestarts : ((restartsOf ri g).flatMap putU32).length = 4 * (restartsOf ri g).length := by
    rw [List.length_flatMap]
    simp [Nat.mul_comm]
  rw [groupBytes, blockBytes, length_withCrc, List.length_append, List.length_append, hrestarts,
    length_flatMap_encodeEntry, length_putU32]
  omega

theorem hasAt_groupBytes (ri : ℕ) (g : List Entry) :
    HasAt (groupBytes ri g) 0 (g.flatMap encodeEntry) ∧
      HasAt (groupBytes ri g) (rowsLen g) ((restartsOf ri g).flatMap putU32) ∧
      HasAt (groupBytes ri g) ((groupBytes ri g).length - 8)
        (putU32 (restartsOf ri g).length) := by
  have hall : HasAt (groupBytes ri g) 0 (g.flatMap encodeEntry ++
      ((restartsOf ri g).flatMap putU32 ++ putU32 (restartsOf ri g).length)) :=
    ⟨[], putU32 _, rfl, rfl⟩
  have hlen := length_groupBytes ri g
  have hrestarts := hall.right
  have hcount := hrestarts.right
  rw [length_flatMap_encodeEntry, Nat.zero_add] at hrestarts hcount
  have hpos : rowsLen g + ((restartsOf ri g).flatMap putU32).length =
      (groupBytes ri g).length - 8 := by
    rw [hlen, List.length_flatMap]
    simp
    omega
  rw [hpos] at hcount
  exact ⟨hall.left, hrestarts.left, hcount⟩

theorem rowsLen_pos {g : List Entry} (hne : g ≠ []) : kEntryHeader ≤ rowsLen g := by
  obtain ⟨e, es, rfl⟩ := List.exists_cons_of_ne_nil hne
  rw [rowsLen, List.map_cons, List.sum_cons, entryLen]
  omega

theorem length_le_rowsLen (g : List Entry) : g.length ≤ rowsLen g := by
  have hsum := List.length_le_sum_of_one_le (g.map entryLen) (fun n hn => by
    obtain ⟨e, -, rfl⟩ := List.mem_map.mp hn
    exact entryLen_pos e)
  rwa [List.length_map] at hsum

/-- The number of restart points, as the readers find it in the trailer. -/
theorem readLe_restartCount {ri : ℕ} {g : List Entry} (hsmall : (groupBytes ri g).length < 2 ^ 32) :
    readLe (groupBytes ri g) ((groupBytes ri g).length - 8) 4 = some (restartsOf ri g).length := by
  have hlen := length_groupBytes ri g
  refine (hasAt_groupBytes ri g).2.2.readLe ?_
  show _ < 2 ^ 32
  omega

theorem scanBlock_groupBytes {ri : ℕ} {g : List Entry} (hfits : ∀ e ∈ g, EntryFits e)
    (hsmall : (groupBytes ri g).length < 2 ^ 32) (base : ℕ) (entries : List Entry) :
    scanBlock base (groupBytes ri g) entries = .ok (entries ++ g) := by
  have hlen := length_groupBytes ri g
  have hend : (groupBytes ri g).length - 8 - 4 * (restartsOf ri g).length = rowsLen g := by omega
  have hcount := length_le_rowsLen g
  rw [scanBlock, readLe_restartCount hsmall, demand_some, ok_bind, if_neg (by omega), hend]
  have hfold : ∀ (g entries : List Entry),
      g.foldl (fun es e => es ++ [e]) entries = entries ++ g := by
    intro g
    induction g with
    | nil => simp
    | cons e g ih => intro entries; rw [List.foldl_cons, ih, List.append_assoc]; rfl
  rw [← hfold]
  refine walk_items (fun e _ => entryLen_pos e) (by omega) (Nat.zero_add _)
    (fun es pre e post hsplit => ?_)
  have hat : HasAt (groupBytes ri g) (pre.map entryLen).sum (encodeEntry e) := by
    have hitem := hasAt_flatMap encodeEntry pre e post
    simp only [length_encodeEntry, ← hsplit] at hitem
    have hrow := (hasAt_groupBytes ri g).1.trans hitem
    rwa [Nat.zero_add] at hrow
  have hwithin : (pre.map entryLen).sum + entryLen e ≤ rowsLen g := by
    rw [rowsLen, hsplit, List.map_append, List.sum_append, List.map_cons, List.sum_cons]
    omega
  rw [Nat.zero_add, readEntry_of_hasAt (hfits e (by rw [hsplit]; simp)) hat hwithin]
  rfl

/-- The block an index entry leads to. -/
theorem Table.read_block (h : Table cfg file groups num_keys bits) {p : ℕ × List Entry}
    (hp : p ∈ placed cfg.restartInterval 0 groups) :
    (indexEntryOf cfg.restartInterval p.1 p.2).size =
        (groupBytes cfg.restartInterval p.2).length ∧
      12 ≤ (groupBytes cfg.restartInterval p.2).length ∧
      (groupBytes cfg.restartInterval p.2).length < 2 ^ 32 ∧ p.1 < 2 ^ 63 ∧
      p.1 + (groupBytes cfg.restartInterval p.2).length ≤ dataLen cfg.restartInterval groups ∧
      HasAt file p.1 (groupBytes cfg.restartInterval p.2) := by
  have hmem := mem_groups hp
  have hsmall := h.small p.2 hmem
  have hrows := rowsLen_pos (h.nonempty p.2 hmem)
  have hlen := length_groupBytes cfg.restartInterval p.2
  have hat := h.laid.hasAt_block hp
  have hsize := h.size
  have hle := hat.le
  have hdata := (hasAt_placed hp (rfl : ([] : Bytes).length = 0) []).le
  rw [List.nil_append, List.append_nil, length_flatten_groups] at hdata
  rw [kEntryHeader] at hrows
  exact ⟨Nat.mod_eq_of_lt hsmall, by omega, hsmall, by omega, hdata, hat⟩

theorem crcMatches_groupBytes (ri : ℕ) (g : List Entry) :
    crcMatches (groupBytes ri g) (groupBytes ri g).length = .ok true := crcMatches_withCrc _

/-- The scanner at an entry whose sums do not wrap. -/
theorem IndexAt.scanStep_eq {block : Bytes} {stop pos : ℕ} {x : IndexEntry}
    (h : IndexAt block stop pos x) (hshort : x.Short) (file : Bytes) (entries : List Entry) :
    Sst.scanStep file block entries pos = (do
      let b ← readRange file x.offset x.size (corrupt x.offset "short read on data block")
      let sound ← if x.size < 12 then .ok false else crcMatches b x.size
      if sound then do
        let entries ← scanBlock x.offset b entries
        .ok (entries, pos + indexEntryLen x)
      else .error (corrupt x.offset "data block checksum mismatch")) := by
  have hlen : 4 + x.firstKey.length < 2 ^ 32 := by
    rw [IndexEntry.Short] at hshort
    omega
  have hnext : pos + 4 + x.firstKey.length + 12 = pos + indexEntryLen x := by
    rw [indexEntryLen]
    omega
  simp only [Sst.scanStep, h.keyLen, demand_some, ok_bind, Nat.mod_eq_of_lt hlen, ← Nat.add_assoc,
    h.offset, h.blockSize, hnext]

theorem Table.scanStep (h : Table cfg file groups num_keys bits) (entries : List Entry) {pos : ℕ}
    {p : ℕ × List Entry} (hp : p ∈ placed cfg.restartInterval 0 groups)
    (hat : IndexAt (tableIndex cfg groups) ((tableIndex cfg groups).length - 4) pos
      (indexEntryOf cfg.restartInterval p.1 p.2)) :
    Sst.scanStep file (tableIndex cfg groups) entries pos =
      .ok (entries ++ p.2,
        pos + indexEntryLen (indexEntryOf cfg.restartInterval p.1 p.2)) := by
  obtain ⟨hsize, hmin, hsmall, -, -, hblock⟩ := h.read_block hp
  have hmem := mem_groups hp
  have hread : ∀ short, readRange file p.1 (groupBytes cfg.restartInterval p.2).length short =
      .ok (groupBytes cfg.restartInterval p.2) := fun short => readRange_of_hasAt hblock rfl h.size
  have hoff : (indexEntryOf cfg.restartInterval p.1 p.2).offset = p.1 := rfl
  rw [hat.scanStep_eq (h.short hp), hsize, hoff, hread, ok_bind, if_neg (by omega),
    crcMatches_groupBytes]
  simp only [ok_bind, if_true, scanBlock_groupBytes (h.rows p.2 hmem) hsmall]

theorem foldl_append_placed (ri off : ℕ) (gs : List (List Entry)) (entries : List Entry) :
    (placed ri off gs).foldl (fun es p => es ++ p.2) entries = entries ++ gs.flatten := by
  induction gs generalizing off entries with
  | nil => exact (List.append_nil _).symm
  | cons g gs ih => rw [placed, List.foldl_cons, ih, List.flatten_cons, List.append_assoc]

theorem Table.scan (h : Table cfg file groups num_keys bits) :
    scanSstable (some file) = .ok groups.flatten := by
  obtain ⟨info, hinspect, -, hoff, hsize⟩ := h.inspect
  have hwalk := h.laid.walk_index (fun s pos p hp hat => h.scanStep s hp hat) []
  rw [foldl_append_placed, List.nil_append] at hwalk
  have hread := h.laid.read_index (corrupt info.indexOff "short read on index")
  simp only [scanSstable, hinspect, ok_bind]
  rw [hoff, hsize]
  rw [hoff] at hread
  exact (congrArg (· >>= _) hread).trans hwalk

/-! ## Verification -/

theorem verifySection_of_hasAt {off n : ℕ} {block : Bytes}
    (hsize : file.length < 2 ^ 63) (hat : HasAt file off block) (hn : n = block.length)
    (hcrc : crcMatches block block.length = .ok true) (unreadable mismatch : String) :
    Sst.verifySection file off n unreadable mismatch = .ok block := by
  have hle := hat.le
  subst hn
  rw [Sst.verifySection, verifyRead, if_neg (by omega), readFile_of_hasAt hat rfl (by omega),
    demand_some, ok_bind, hcrc]
  rfl

theorem Table.verifyStep (h : Table cfg file groups num_keys bits) {pos : ℕ}
    {p : ℕ × List Entry} (hp : p ∈ placed cfg.restartInterval 0 groups)
    (hat : IndexAt (tableIndex cfg groups) ((tableIndex cfg groups).length - 4) pos
      (indexEntryOf cfg.restartInterval p.1 p.2)) :
    Sst.verifyStep file (tableIndex cfg groups) (dataLen cfg.restartInterval groups)
        ((tableIndex cfg groups).length - 4) () pos =
      .ok ((), pos + indexEntryLen (indexEntryOf cfg.restartInterval p.1 p.2)) := by
  obtain ⟨hsize, hmin, hsmall, hlow, hdata, hblock⟩ := h.read_block hp
  have hwithin := hat.within
  rw [indexEntryLen] at hwithin
  have hoff : (indexEntryOf cfg.restartInterval p.1 p.2).offset = p.1 := rfl
  have hrange : (decide (dataLen cfg.restartInterval groups <
      (p.1 + (groupBytes cfg.restartInterval p.2).length) % 2 ^ 64) ||
        decide ((groupBytes cfg.restartInterval p.2).length < 4)) = false := by
    rw [Nat.mod_eq_of_lt (by omega)]
    simp only [Bool.or_eq_false_iff, decide_eq_false_iff_not]
    omega
  rw [Sst.verifyStep, if_neg (by omega), hat.keyLen, demand_some, ok_bind, if_neg (by omega),
    hat.offset, demand_some, ok_bind, hat.blockSize, demand_some, ok_bind, hsize, hoff, hrange,
    if_neg (by decide),
    verifySection_of_hasAt h.size hblock rfl (crcMatches_groupBytes _ _), ok_bind, indexEntryLen]
  simp only [Nat.add_assoc]

theorem Table.verify (h : Table cfg file groups num_keys bits) :
    verifySstable (some file) = .ok "OK" := by
  have hindex : verifySection file (tableFooter cfg groups num_keys bits).indexOff
      (tableFooter cfg groups num_keys bits).indexSize "cannot read index block"
      "index block checksum mismatch" = .ok (tableIndex cfg groups) :=
    verifySection_of_hasAt h.size h.laid.hasAt_index rfl (crcMatches_withCrc _) _ _
  have hfilter : verifySection file (tableFooter cfg groups num_keys bits).filterOff
      (tableFooter cfg groups num_keys bits).filterSize "cannot read filter block"
      "filter block checksum mismatch" = .ok (filterBlock cfg num_keys bits) :=
    verifySection_of_hasAt h.size h.hasAt_filter rfl (crcMatches_withCrc _) _ _
  have hwalk := h.laid.walk_index (f := fun u _ => u) (fun _ pos p hp hat => h.verifyStep hp hat) ()
  have hfile : verifyFile file = .ok () := by
    rw [verifyFile, h.verifyFooter, ok_bind, hindex, ok_bind, hfilter, ok_bind]
    exact hwalk
  rw [verifySstable, hfile]

end

end Sst
end LsmKv
