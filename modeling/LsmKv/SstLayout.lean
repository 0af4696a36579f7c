import LsmKv.SstWriter

/-!
# What the writer's file looks like

The rows fall into non-empty groups, in order; each group is one data block, and the index
has one entry for each. The builder's loop keeps exactly this, whatever block size cuts the
groups.
-/

namespace LsmKv
namespace Sst

/-- The restart points of rows that follow `i` rows, the first at offset `off`. -/
def restartsFrom (ri : ℕ) : ℕ → ℕ → List Entry → List ℕ
  | _, _, [] => []
  | off, i, e :: es =>
    (if i % 2 ^ 32 % ri = 0 then [off % 2 ^ 32] else []) ++
      restartsFrom ri (off + entryLen e) (i + 1) es

def restartsOf (ri : ℕ) (g : List Entry) : List ℕ := restartsFrom ri 0 0 g

/-- A group written out as a data block. -/
def groupBytes (ri : ℕ) (g : List Entry) : Bytes :=
  blockBytes (g.flatMap encodeEntry) (restartsOf ri g)

def firstKeyOf (g : List Entry) : Bytes := (g.head?.map Prod.fst).getD []

def indexEntryOf (ri off : ℕ) (g : List Entry) : IndexEntry :=
  ⟨firstKeyOf g, off, (groupBytes ri g).length % 2 ^ 32⟩

/-- Groups with the offsets of their blocks, the first at `off`. -/
def placed (ri : ℕ) : ℕ → List (List Entry) → List (ℕ × List Entry)
  | _, [] => []
  | off, g :: gs => (off, g) :: placed ri (off + (groupBytes ri g).length) gs

def indexFrom (ri off : ℕ) (groups : List (List Entry)) : List IndexEntry :=
  (placed ri off groups).map (fun p => indexEntryOf ri p.1 p.2)

/-- The space groups take in the file. -/
def dataLen (ri : ℕ) (groups : List (List Entry)) : ℕ :=
  (groups.map (fun g => (groupBytes ri g).length)).sum

@[simp] theorem dataLen_nil (ri : ℕ) : dataLen ri [] = 0 := rfl

theorem dataLen_append (ri : ℕ) (gs hs : List (List Entry)) :
    dataLen ri (gs ++ hs) = dataLen ri gs + dataLen ri hs := by
  simp [dataLen]

theorem dataLen_cons (ri : ℕ) (g : List Entry) (gs : List (List Entry)) :
    dataLen ri (g :: gs) = (groupBytes ri g).length + dataLen ri gs := rfl

/-- The space rows take in a block. -/
def rowsLen (es : List Entry) : ℕ := (es.map entryLen).sum

theorem length_flatMap_encodeEntry (es : List Entry) :
    (es.flatMap encodeEntry).length = rowsLen es := by
  simp [List.length_flatMap, rowsLen]

theorem flatMap_encodeEntry_eq_nil {es : List Entry} : es.flatMap encodeEntry = [] ↔ es = [] := by
  constructor
  · intro h
    cases es with
    | nil => rfl
    | cons e es =>
      have hlen := congrArg List.length h
      have := entryLen_pos e
      simp at hlen
      omega
  · rintro rfl
    rfl

theorem restartsFrom_append (ri off i : ℕ) (es fs : List Entry) :
    restartsFrom ri off i (es ++ fs) =
      restartsFrom ri off i es ++ restartsFrom ri (off + rowsLen es) (i + es.length) fs := by
  induction es generalizing off i with
  | nil => simp [restartsFrom, rowsLen]
  | cons e es ih =>
    rw [List.cons_append, restartsFrom, restartsFrom, ih, List.append_assoc, List.length_cons,
      rowsLen, rowsLen, List.map_cons, List.sum_cons, Nat.add_assoc off, Nat.add_right_comm i,
      Nat.add_assoc i]

theorem placed_append (ri off : ℕ) (gs hs : List (List Entry)) :
    placed ri off (gs ++ hs) = placed ri off gs ++ placed ri (off + dataLen ri gs) hs := by
  induction gs generalizing off with
  | nil => rfl
  | cons g gs ih =>
    rw [List.cons_append, placed, placed, ih, List.cons_append, dataLen_cons, Nat.add_assoc]

theorem indexFrom_append (ri off : ℕ) (gs hs : List (List Entry)) :
    indexFrom ri off (gs ++ hs) = indexFrom ri off gs ++ indexFrom ri (off + dataLen ri gs) hs := by
  rw [indexFrom, placed_append, List.map_append]
  rfl

theorem map_snd_placed (ri off : ℕ) (gs : List (List Entry)) :
    (placed ri off gs).map Prod.snd = gs := by
  induction gs generalizing off with
  | nil => rfl
  | cons g gs ih => rw [placed, List.map_cons, ih]

/-- A placed group's block stands at its offset. -/
theorem hasAt_placed {ri off : ℕ} {gs : List (List Entry)} {p : ℕ × List Entry}
    (hp : p ∈ placed ri off gs) {pre : Bytes} (hpre : pre.length = off) (post : Bytes) :
    HasAt (pre ++ ((gs.map (groupBytes ri)).flatten ++ post)) p.1 (groupBytes ri p.2) := by
  induction gs generalizing off pre with
  | nil => cases hp
  | cons g gs ih =>
    rw [List.map_cons, List.flatten_cons, List.append_assoc]
    rcases List.mem_cons.mp hp with rfl | hp
    · exact ⟨pre, _, rfl, hpre⟩
    · rw [← List.append_assoc]
      exact ih hp (by rw [List.length_append, hpre])

/-! ## The loop -/

/-- The builder holds the groups as finished blocks and `cur` as the current one. -/
structure Filled (cfg : SstConfig) (b : Builder) (groups : List (List Entry))
    (cur : List Entry) : Prop where
  nonempty : ∀ g ∈ groups, g ≠ []
  blocks : b.blocks = groups.map (groupBytes cfg.restartInterval)
  index : b.index = indexFrom cfg.restartInterval 0 groups
  offset : b.fileOffset = dataLen cfg.restartInterval groups
  block : b.block = cur.flatMap encodeEntry
  restarts : b.restarts = restartsOf cfg.restartInterval cur
  firstKey : cur ≠ [] → b.blockFirstKey = firstKeyOf cur
  count : b.blockEntries = cur.length % 2 ^ 32

variable {cfg : SstConfig} {b : Builder} {groups : List (List Entry)} {cur : List Entry}

theorem filled_start (cfg : SstConfig) (bits : Bytes) : Filled cfg { bits := bits } [] [] :=
  ⟨by simp, rfl, rfl, rfl, rfl, rfl, by simp, rfl⟩

theorem Filled.block_eq_nil (h : Filled cfg b groups cur) : b.block = [] ↔ cur = [] := by
  rw [h.block]
  exact flatMap_encodeEntry_eq_nil

theorem Filled.push (h : Filled cfg b groups cur) (e : Entry) :
    Filled cfg (pushEntry cfg b e) groups (cur ++ [e]) := by
  refine ⟨h.nonempty, h.blocks, h.index, h.offset, ?_, ?_, fun _ => ?_, ?_⟩
  · show b.block ++ encodeEntry e = _
    rw [h.block, List.flatMap_append]
    simp
  · show (if b.blockEntries % cfg.restartInterval = 0
      then b.restarts ++ [b.block.length % 2 ^ 32] else b.restarts) = _
    rw [restartsOf, restartsFrom_append, h.restarts, h.count, h.block,
      length_flatMap_encodeEntry, Nat.zero_add, Nat.zero_add, restartsFrom, restartsFrom,
      List.append_nil]
    split
    · rfl
    · exact (List.append_nil _).symm
  · show (if b.block = [] then e.1 else b.blockFirstKey) = _
    rcases List.eq_nil_or_concat' cur with rfl | ⟨pre, x, hcur⟩
    · rw [if_pos (h.block_eq_nil.mpr rfl)]
      rfl
    · have hne : cur ≠ [] := by simp [hcur]
      rw [if_neg (fun hnil => hne (h.block_eq_nil.mp hnil)), h.firstKey hne, firstKeyOf,
        firstKeyOf, List.head?_append_of_ne_nil _ hne]
  · show (b.blockEntries + 1) % 2 ^ 32 = _
    rw [h.count, List.length_append, List.length_singleton, Nat.mod_add_mod]

theorem Filled.finish (h : Filled cfg b groups cur) (hne : cur ≠ []) :
    Filled cfg (finishBlock b) (groups ++ [cur]) [] := by
  have hblock : ¬b.block = [] := fun hnil => hne (h.block_eq_nil.mp hnil)
  have hbytes : blockBytes b.block b.restarts = groupBytes cfg.restartInterval cur := by
    rw [h.block, h.restarts]
    rfl
  rw [finishBlock, if_neg hblock]
  refine ⟨?_, ?_, ?_, ?_, rfl, rfl, by simp, rfl⟩
  · intro g hg
    rcases List.mem_append.mp hg with hg | hg
    · exact h.nonempty g hg
    · obtain rfl := List.mem_singleton.mp hg
      exact hne
  · show b.blocks ++ [blockBytes b.block b.restarts] = _
    rw [hbytes, h.blocks, List.map_append]
    rfl
  · show b.index ++ [_] = _
    rw [hbytes, h.index, h.offset, h.firstKey hne, indexFrom_append, Nat.zero_add]
    rfl
  · show b.fileOffset + (blockBytes b.block b.restarts).length = _
    rw [hbytes, h.offset, dataLen_append]
    simp [dataLen]

/-- One row: it goes into the current group, which may end with it. -/
theorem Filled.add (h : Filled cfg b groups cur) (e : Entry) :
    ∃ groups' cur', Filled cfg (addEntry cfg b e) groups' cur' ∧
      groups'.flatten ++ cur' = groups.flatten ++ cur ++ [e] := by
  rw [addEntry]
  split
  · refine ⟨groups ++ [cur ++ [e]], [], (h.push e).finish (by simp), ?_⟩
    simp
  · exact ⟨groups, cur ++ [e], h.push e, by simp⟩

theorem Filled.foldl (h : Filled cfg b groups cur) (es : List Entry) :
    ∃ groups' cur', Filled cfg (es.foldl (addEntry cfg) b) groups' cur' ∧
      groups'.flatten ++ cur' = groups.flatten ++ cur ++ es := by
  induction es generalizing b groups cur with
  | nil => exact ⟨groups, cur, h, (List.append_nil _).symm⟩
  | cons e es ih =>
    obtain ⟨groups', cur', hadd, heq⟩ := h.add e
    obtain ⟨groups'', cur'', hfold, heq'⟩ := ih hadd
    refine ⟨groups'', cur'', hfold, ?_⟩
    rw [heq', heq, List.append_assoc (groups.flatten ++ cur)]
    rfl

/-- All rows end up in finished blocks. -/
theorem exists_filled (cfg : SstConfig) (mem : Memtable) :
    ∃ groups, Filled cfg (buildBlocks cfg mem) groups [] ∧
      groups.flatten = mem.map.entries := by
  obtain ⟨groups, cur, hfold, heq⟩ :=
    (filled_start cfg (Bloom.clear cfg.numBits)).foldl mem.map.entries
  rw [List.flatten_nil, List.nil_append, List.nil_append] at heq
  rw [buildBlocks]
  by_cases hne : cur = []
  · subst hne
    refine ⟨groups, ?_, by rw [← heq, List.append_nil]⟩
    rwa [finishBlock, if_pos (hfold.block_eq_nil.mpr rfl)]
  · refine ⟨groups ++ [cur], hfold.finish hne, ?_⟩
    rw [← heq]
    simp

/-! ## The summary of the rows -/

/-- What the loop computes from the rows besides the blocks. -/
structure Sums (cfg : SstConfig) (b : Builder) (es : List Entry) : Prop where
  bits : b.bits = (es.map Prod.fst).foldl (Bloom.add cfg.numBits cfg.numHashes)
    (Bloom.clear cfg.numBits)
  maxKey : b.maxKey = (es.getLast?.map Prod.fst).getD []
  minSeqno : b.minSeqno = es.foldl (fun m e => min m e.2.seqno) (2 ^ 64 - 1)
  maxSeqno : b.maxSeqno = es.foldl (fun m e => max m e.2.seqno) 0

theorem Sums.finish {es : List Entry} (h : Sums cfg b es) : Sums cfg (finishBlock b) es := by
  rw [finishBlock]
  split
  · exact h
  · exact ⟨h.bits, h.maxKey, h.minSeqno, h.maxSeqno⟩

theorem Sums.add {es : List Entry} (h : Sums cfg b es) (e : Entry) :
    Sums cfg (addEntry cfg b e) (es ++ [e]) := by
  have hpush : Sums cfg (pushEntry cfg b e) (es ++ [e]) := by
    refine ⟨?_, ?_, ?_, ?_⟩
    · show Bloom.add _ _ b.bits e.1 = _
      rw [h.bits, List.map_append, List.foldl_append]
      rfl
    · show e.1 = _
      simp
    · show min b.minSeqno e.2.seqno = _
      rw [h.minSeqno, List.foldl_append]
      rfl
    · show max b.maxSeqno e.2.seqno = _
      rw [h.maxSeqno, List.foldl_append]
      rfl
  rw [addEntry]
  split
  · exact hpush.finish
  · exact hpush

theorem Sums.foldl {es : List Entry} (h : Sums cfg b es) (fs : List Entry) :
    Sums cfg (fs.foldl (addEntry cfg) b) (es ++ fs) := by
  induction fs generalizing b es with
  | nil => rwa [List.append_nil]
  | cons f fs ih =>
    have hrest := ih (h.add f)
    rwa [List.append_assoc] at hrest

theorem sums_buildBlocks (cfg : SstConfig) (mem : Memtable) :
    Sums cfg (buildBlocks cfg mem) mem.map.entries := by
  have hstart : Sums cfg { bits := Bloom.clear cfg.numBits } [] := ⟨rfl, rfl, rfl, rfl⟩
  exact (hstart.foldl mem.map.entries).finish

end Sst
end LsmKv
