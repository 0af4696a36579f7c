import LsmKv.CachedReads
import LsmKv.EngineTables
import LsmKv.SstArithmetic

/-!
# What a table file says

A file that was written with none of its fields cut short has the rows it was written from, and
no others: a scan gives them back, and so does every lookup within the bounds of its metadata.
-/

namespace LsmKv
open OrderedMap

namespace Sst

/-- The file is one written of these rows. -/
def Images (file : Bytes) (rows : Rows) : Prop :=
  ∃ cfg mem, WriteFits cfg mem ∧ mem.map = rows ∧ file = tableBytes cfg mem

/-- The keys lie within the bounds of the metadata. -/
def Bounds (info : TableMeta) (rows : Rows) : Prop :=
  ∀ e ∈ rows.entries, info.minKey ≤ e.1 ∧ e.1 ≤ info.maxKey

section
variable {file : Bytes} {rows : Rows}

theorem Images.scan (h : Images file rows) : scanSstable (some file) = .ok rows.entries := by
  obtain ⟨cfg, mem, hfits, rfl, rfl⟩ := h
  obtain ⟨groups, htable, hflat, -⟩ := exists_table hfits
  exact hflat ▸ htable.scan

theorem Images.unique (h : Images file rows) {rows' : Rows} (h' : Images file rows') :
    rows = rows' := ext_entries (Except.ok.inj (h.scan.symm.trans h'.scan))

theorem Images.plainGet (h : Images file rows) {info : TableMeta} (hb : Bounds info rows)
    (key : Bytes) : plainGet (some file) info key = .ok (rows.find? key) := by
  obtain ⟨cfg, mem, hfits, rfl, rfl⟩ := h
  obtain ⟨groups, htable, hflat, -⟩ := exists_table hfits
  have hagree : Agrees cfg (tableBytes cfg mem) groups mem.entries (buildBlocks cfg mem).bits info
      (freshReader (tableBytes cfg mem) info false { capacity := 0 }) :=
    agrees_freshReader false (fun _ hn => nomatch hn)
  have hsorted : groups.flatten.Pairwise (fun a b => a.1 < b.1) := hflat ▸ mem.map.sorted
  obtain ⟨c, hget, -⟩ := hagree.get htable (filterFits_buildBlocks hfits hflat) hsorted
    (fun e he => (hb e (hflat ▸ he)).1) (fun e he => (hb e (hflat ▸ he)).2) key
  have hresult := congrArg Prod.snd hget
  rw [hflat] at hresult
  exact hresult

end

section
variable {id : ℕ} {mem : Memtable} {cfg : SstConfig} {r : SstBuildResult} {file : Bytes}

theorem writeSstable_eq_ok (h : writeSstable id mem cfg = .ok (r, file)) :
    mem.map.entries ≠ [] ∧ cfg.restartInterval ≠ 0 ∧ file = tableBytes cfg mem := by
  rw [writeSstable] at h
  split at h
  · cases h
  rename_i first rest hrows
  split at h
  · cases h
  rename_i hinterval
  obtain ⟨-, rfl⟩ := Prod.mk.inj (Except.ok.inj h)
  exact ⟨hrows ▸ List.cons_ne_nil _ _, hinterval, rfl⟩

theorem bounds_writeSstable (h : writeSstable id mem cfg = .ok (r, file)) (now : ℕ) :
    Bounds (r.toMeta now) mem.map := by
  rw [writeSstable] at h
  split at h
  · cases h
  rename_i first rest hrows
  split at h
  · cases h
  obtain ⟨rfl, -⟩ := Prod.mk.inj (Except.ok.inj h)
  have hgreatest := isGreatest_maxKey cfg (hrows ▸ List.cons_ne_nil _ _ : mem.map.entries ≠ [])
  exact fun e he => ⟨(isLeast_first hrows).2 ⟨e, he, rfl⟩, hgreatest.2 ⟨e, he, rfl⟩⟩

/-- Blocks of accepted rows stay small where the block size is. -/
theorem length_blocks_lt (haccepted : AcceptedRows mem) (hsmall : cfg.blockSize ≤ 2 ^ 30) :
    ∀ b ∈ (buildBlocks cfg mem).blocks, b.length < 2 ^ 32 := by
  intro b hb
  rw [← traceBlocks_b, (traces_traceBlocks cfg mem).filled.blocks] at hb
  obtain ⟨g, hg, rfl⟩ := List.mem_map.mp hb
  exact groupBytes_lt_iff.mpr (groupSize_lt_of_small haccepted hsmall hg)

/-- What a filter and the blocks need of the settings. -/
structure SstConfig.Sized (cfg : SstConfig) : Prop where
  blockSize : cfg.blockSize ≤ 2 ^ 30
  numBits : 64 ≤ cfg.numBits ∧ cfg.numBits ≤ 2 ^ 62
  numHashes : 1 ≤ cfg.numHashes ∧ cfg.numHashes < 2 ^ 32

theorem images_writeSstable (h : writeSstable id mem cfg = .ok (r, file)) (hcfg : cfg.Sized)
    (haccepted : AcceptedRows mem) (hseqnos : ∀ e ∈ mem.map.entries, e.2.seqno < 2 ^ 64)
    (hsize : file.length < 2 ^ 63) : Images file mem.map := by
  obtain ⟨hrows, hinterval, rfl⟩ := writeSstable_eq_ok h
  have hmax : WalFormat.kMaxPayload < 2 ^ 32 := by decide
  exact ⟨cfg, mem, {
    nonempty := hrows
    restartInterval := Nat.one_le_iff_ne_zero.mpr hinterval
    numBits := hcfg.numBits
    numHashes := hcfg.numHashes
    rows := fun e he => ⟨(haccepted e he).2.1.trans_lt hmax, (haccepted e he).2.2.trans_lt hmax,
      hseqnos e he⟩
    blocks := length_blocks_lt haccepted hcfg.blockSize
    size := hsize }, rfl, rfl⟩

end
end Sst
end LsmKv
