import LsmKv.SstAgreement

/-!
# Scanning undoes writing

The published file of any memtable verifies, is accepted, and reads back row for row; the
result's bounds are the least and greatest of the rows.
-/

namespace LsmKv
namespace Sst

/-- What is assumed of a write: the settings the caller vouches for, and no overflow of a
32-bit field or of a file offset. -/
structure WriteFits (cfg : SstConfig) (mem : Memtable) : Prop where
  nonempty : mem.map.entries ≠ []
  restartInterval : 1 ≤ cfg.restartInterval
  numBits : 64 ≤ cfg.numBits ∧ cfg.numBits ≤ 2 ^ 62
  numHashes : 1 ≤ cfg.numHashes ∧ cfg.numHashes < 2 ^ 32
  rows : ∀ e ∈ mem.map.entries, EntryFits e
  blocks : ∀ b ∈ (buildBlocks cfg mem).blocks, b.length < 2 ^ 32
  size : (tableBytes cfg mem).length < 2 ^ 63

section
variable {cfg : SstConfig} {mem : Memtable}

/-- A row takes room in the file. -/
theorem length_le_dataLen (ri : ℕ) (groups : List (List Entry)) :
    groups.flatten.length ≤ dataLen ri groups := by
  induction groups with
  | nil => exact le_rfl
  | cons g gs ih =>
    have hrows := length_le_rowsLen g
    have hlen := length_groupBytes ri g
    rw [List.flatten_cons, List.length_append, dataLen_cons]
    omega

/-- The writer's file, seen as the groups its rows fell into. -/
theorem exists_laid (hkeys : ∀ e ∈ mem.map.entries, e.1.length < 2 ^ 32)
    (hsize : (tableBytes cfg mem).length < 2 ^ 63) :
    ∃ groups, Laid cfg (tableBytes cfg mem) groups mem.entries (buildBlocks cfg mem).bits ∧
      groups.flatten = mem.map.entries ∧
      (buildBlocks cfg mem).blocks = groups.map (groupBytes cfg.restartInterval) := by
  obtain ⟨groups, hfilled, hflat⟩ := exists_filled cfg mem
  refine ⟨groups, ⟨?_, hfilled.nonempty, fun g hg e he => ?_, hsize⟩, hflat, hfilled.blocks⟩
  · rw [tableBytes, hfilled.blocks, hfilled.offset, hfilled.index]
  · exact hkeys e (hflat ▸ List.mem_flatten.mpr ⟨g, hg, he⟩)

theorem exists_table (h : WriteFits cfg mem) :
    ∃ groups, Table cfg (tableBytes cfg mem) groups mem.entries (buildBlocks cfg mem).bits ∧
      groups.flatten = mem.map.entries ∧
      (buildBlocks cfg mem).blocks.length = groups.length := by
  obtain ⟨groups, hlaid, hflat, hblocks⟩ := exists_laid (fun e he => (h.rows e he).key) h.size
  have hmem : ∀ g ∈ groups, ∀ e ∈ g, e ∈ mem.map.entries := fun g hg e he =>
    hflat ▸ List.mem_flatten.mpr ⟨g, hg, he⟩
  have hkeys : mem.entries ≤ dataLen cfg.restartInterval groups := by
    have := length_le_dataLen cfg.restartInterval groups
    rwa [hflat] at this
  have hlen := hlaid.length_file
  have hsize := h.size
  refine ⟨groups, ⟨hlaid.shape, hlaid.nonempty, fun g hg e he => h.rows e (hmem g hg e he),
    fun g hg => h.blocks _ ?_, hsize, ?_, h.numHashes.2, by omega⟩, hflat, ?_⟩
  · rw [hblocks]
    exact List.mem_map_of_mem hg
  · have := h.numBits.2
    omega
  · rw [hblocks, List.length_map]

theorem length_tableBytes (cfg : SstConfig) (mem : Memtable) :
    (tableBytes cfg mem).length = (buildBlocks cfg mem).blocks.flatten.length +
      (((buildBlocks cfg mem).index.map indexEntryLen).sum + 4) +
        (24 + (cfg.numBits + 7) / 8) + kFooterSize := by
  have hbits : (buildBlocks cfg mem).bits.length = (cfg.numBits + 7) / 8 := by
    rw [(sums_buildBlocks cfg mem).bits, Bloom.length_foldl_add, Bloom.clear,
      List.length_replicate]
  simp only [tableBytes, tail, List.length_append, length_indexBlock, length_filterBlock, hbits,
    length_encode_footer]
  omega

/-! ## The bounds in the result -/

theorem foldl_min_le (es : List Entry) (m : ℕ) :
    es.foldl (fun m e => min m e.2.seqno) m ≤ m ∧
      ∀ e ∈ es, es.foldl (fun m e => min m e.2.seqno) m ≤ e.2.seqno := by
  induction es generalizing m with
  | nil => exact ⟨le_rfl, by simp⟩
  | cons e es ih =>
    obtain ⟨hm, hes⟩ := ih (min m e.2.seqno)
    refine ⟨hm.trans (min_le_left _ _), fun x hx => ?_⟩
    rcases List.mem_cons.mp hx with rfl | hx
    · exact hm.trans (min_le_right _ _)
    · exact hes x hx

theorem foldl_min_mem (es : List Entry) (m : ℕ) :
    es.foldl (fun m e => min m e.2.seqno) m = m ∨
      ∃ e ∈ es, e.2.seqno = es.foldl (fun m e => min m e.2.seqno) m := by
  induction es generalizing m with
  | nil => exact .inl rfl
  | cons e es ih =>
    rw [List.foldl_cons]
    rcases ih (min m e.2.seqno) with h | ⟨x, hx, h⟩
    · rw [h]
      rcases min_choice m e.2.seqno with hm | he
      · exact .inl hm
      · exact .inr ⟨e, List.mem_cons_self, he.symm⟩
    · exact .inr ⟨x, List.mem_cons_of_mem _ hx, h⟩

theorem le_foldl_max (es : List Entry) (m : ℕ) :
    m ≤ es.foldl (fun m e => max m e.2.seqno) m ∧
      ∀ e ∈ es, e.2.seqno ≤ es.foldl (fun m e => max m e.2.seqno) m := by
  induction es generalizing m with
  | nil => exact ⟨le_rfl, by simp⟩
  | cons e es ih =>
    obtain ⟨hm, hes⟩ := ih (max m e.2.seqno)
    refine ⟨(le_max_left _ _).trans hm, fun x hx => ?_⟩
    rcases List.mem_cons.mp hx with rfl | hx
    · exact (le_max_right _ _).trans hm
    · exact hes x hx

theorem foldl_max_mem (es : List Entry) (m : ℕ) :
    es.foldl (fun m e => max m e.2.seqno) m = m ∨
      ∃ e ∈ es, e.2.seqno = es.foldl (fun m e => max m e.2.seqno) m := by
  induction es generalizing m with
  | nil => exact .inl rfl
  | cons e es ih =>
    rw [List.foldl_cons]
    rcases ih (max m e.2.seqno) with h | ⟨x, hx, h⟩
    · rw [h]
      rcases max_choice m e.2.seqno with hm | he
      · exact .inl hm
      · exact .inr ⟨e, List.mem_cons_self, he.symm⟩
    · exact .inr ⟨x, List.mem_cons_of_mem _ hx, h⟩

/-- The seqnos of a memtable's rows. -/
def seqnos (mem : Memtable) : Set ℕ := {s | ∃ e ∈ mem.map.entries, e.2.seqno = s}

/-- The keys of a memtable's rows. -/
def keys (mem : Memtable) : Set Bytes := {k | ∃ e ∈ mem.map.entries, e.1 = k}

theorem isLeast_minSeqno (h : WriteFits cfg mem) :
    IsLeast (seqnos mem) (buildBlocks cfg mem).minSeqno := by
  rw [(sums_buildBlocks cfg mem).minSeqno]
  obtain ⟨first, rest, hrows⟩ := List.exists_cons_of_ne_nil h.nonempty
  have hfirst : first ∈ mem.map.entries := by rw [hrows]; exact List.mem_cons_self
  refine ⟨?_, ?_⟩
  · rcases foldl_min_mem mem.map.entries (2 ^ 64 - 1) with hmin | ⟨e, he, hmin⟩
    · have hle := (foldl_min_le mem.map.entries (2 ^ 64 - 1)).2 first hfirst
      have := (h.rows first hfirst).seqno
      exact ⟨first, hfirst, by omega⟩
    · exact ⟨e, he, hmin⟩
  · rintro s ⟨e, he, rfl⟩
    exact (foldl_min_le _ _).2 e he

theorem isGreatest_maxSeqno (cfg : SstConfig) (h : mem.map.entries ≠ []) :
    IsGreatest (seqnos mem) (buildBlocks cfg mem).maxSeqno := by
  rw [(sums_buildBlocks cfg mem).maxSeqno]
  obtain ⟨first, rest, hrows⟩ := List.exists_cons_of_ne_nil h
  have hfirst : first ∈ mem.map.entries := by rw [hrows]; exact List.mem_cons_self
  refine ⟨?_, ?_⟩
  · rcases foldl_max_mem mem.map.entries 0 with hmax | ⟨e, he, hmax⟩
    · have hle := (le_foldl_max mem.map.entries 0).2 first hfirst
      exact ⟨first, hfirst, by omega⟩
    · exact ⟨e, he, hmax⟩
  · rintro s ⟨e, he, rfl⟩
    exact (le_foldl_max _ _).2 e he

theorem isLeast_first {first : Entry} {rest : List Entry}
    (h : mem.map.entries = first :: rest) : IsLeast (keys mem) first.1 := by
  have hsorted := mem.map.sorted
  rw [h] at hsorted
  refine ⟨⟨first, by rw [h]; exact List.mem_cons_self, rfl⟩, ?_⟩
  rintro k ⟨e, he, rfl⟩
  rw [h] at he
  rcases List.mem_cons.mp he with rfl | he
  · exact le_rfl
  · exact ((List.pairwise_cons.mp hsorted).1 e he).le

theorem isGreatest_maxKey (cfg : SstConfig) (h : mem.map.entries ≠ []) :
    IsGreatest (keys mem) (buildBlocks cfg mem).maxKey := by
  obtain ⟨before, last, hrows⟩ := (List.eq_nil_or_concat' mem.map.entries).resolve_left h
  have hsorted := mem.map.sorted
  rw [hrows] at hsorted
  have hmax : (buildBlocks cfg mem).maxKey = last.1 := by
    rw [(sums_buildBlocks cfg mem).maxKey, hrows]
    simp
  rw [hmax]
  refine ⟨⟨last, by rw [hrows]; simp, rfl⟩, ?_⟩
  rintro k ⟨e, he, rfl⟩
  rw [hrows] at he
  rcases List.mem_append.mp he with he | he
  · exact ((List.pairwise_append.mp hsorted).2.2 e he last List.mem_cons_self).le
  · obtain rfl := List.mem_singleton.mp he
    exact le_rfl

/-- The result describes the rows. -/
structure Describes (mem : Memtable) (file : Bytes) (r : SstBuildResult) : Prop where
  minKey : IsLeast (keys mem) r.minKey
  maxKey : IsGreatest (keys mem) r.maxKey
  minSeqno : IsLeast (seqnos mem) r.minSeqno
  maxSeqno : IsGreatest (seqnos mem) r.maxSeqno
  entries : r.entries = mem.map.entries.length
  fileSize : r.fileSize = file.length

theorem writeSstable_ok (h : WriteFits cfg mem) (id : ℕ) :
    ∃ result, writeSstable id mem cfg = .ok (result, tableBytes cfg mem) ∧ result.id = id ∧
      Describes mem (tableBytes cfg mem) result := by
  obtain ⟨first, rest, hrows⟩ := List.exists_cons_of_ne_nil h.nonempty
  have hri : ¬cfg.restartInterval = 0 := by
    have := h.restartInterval
    omega
  refine ⟨⟨id, (tableBytes cfg mem).length, first.1, (buildBlocks cfg mem).maxKey,
    (buildBlocks cfg mem).minSeqno, (buildBlocks cfg mem).maxSeqno, mem.entries,
    cfg.bitsPerKey, cfg.numHashes⟩, ?_, rfl, isLeast_first hrows, isGreatest_maxKey cfg h.nonempty,
    isLeast_minSeqno h, isGreatest_maxSeqno cfg h.nonempty, rfl, rfl⟩
  rw [writeSstable, hrows]
  simp only [if_neg hri]

end

/-- Writing succeeds; the file verifies, is accepted with the number of blocks written, and
scans back to the rows in key order; the result describes them. -/
theorem scan_writeSstable (id : ℕ) (mem : Memtable) (cfg : SstConfig) (h : WriteFits cfg mem) :
    ∃ result file, writeSstable id mem cfg = .ok (result, file) ∧
      verifySstable (some file) = .ok "OK" ∧
      (∃ info, inspectSstable (some file) = .ok info ∧
        info.dataBlocks = (buildBlocks cfg mem).blocks.length) ∧
      scanSstable (some file) = .ok mem.map.entries ∧ Describes mem file result := by
  obtain ⟨groups, htable, hflat, hblocks⟩ := exists_table h
  obtain ⟨result, hwrite, -, hdesc⟩ := writeSstable_ok h id
  obtain ⟨info, hinspect, hcount, -⟩ := htable.inspect
  exact ⟨result, _, hwrite, htable.verify, ⟨info, hinspect, hcount.trans hblocks.symm⟩,
    hflat ▸ htable.scan, hdesc⟩

/-- A row and a tombstone, each in a block of its own. -/
theorem writeFits_two : WriteFits ⟨1, 1, 64, 1, .ten⟩
    ((Memtable.apply [0x62] [1, 2] 7 false ⟨32, ∅, 0⟩).apply [0x61] [] 8 true) where
  nonempty := by decide
  restartInterval := le_rfl
  numBits := by decide
  numHashes := by decide
  rows := by
    intro e he
    have hrows : e ∈ [(([0x61], ⟨[], 8, true⟩) : Entry), ([0x62], ⟨[1, 2], 7, false⟩)] := he
    rcases List.mem_cons.mp hrows with rfl | hrows
    · exact ⟨by decide, by decide, by decide⟩
    · obtain rfl := List.mem_singleton.mp hrows
      exact ⟨by decide, by decide, by decide⟩
  blocks := by decide
  size := by
    rw [length_tableBytes]
    decide

theorem scan_writeSstable_two : ∃ result file,
    writeSstable 1 ((Memtable.apply [0x62] [1, 2] 7 false ⟨32, ∅, 0⟩).apply [0x61] [] 8 true)
      ⟨1, 1, 64, 1, .ten⟩ = .ok (result, file) ∧
      scanSstable (some file) =
        .ok [([0x61], ⟨[], 8, true⟩), ([0x62], ⟨[1, 2], 7, false⟩)] := by
  obtain ⟨result, file, hwrite, -, -, hscan, -⟩ := scan_writeSstable 1 _ _ writeFits_two
  exact ⟨result, file, hwrite, hscan⟩

end Sst
end LsmKv
