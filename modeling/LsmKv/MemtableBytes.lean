import LsmKv.Replay
import Mathlib.Algebra.Order.BigOperators.Group.List

/-!
# How many bytes a memtable counts

The running count of a memtable is the sum over its rows, so what fewer records build never
counts more, and the end of a piece has no room for a second cut.
-/

namespace LsmKv
open OrderedMap

namespace OrderedMap

variable {κ ν : Type*} [LinearOrder κ]

/-- An insertion puts in its own row and takes out the one it replaces. -/
theorem sum_insertList (g : κ × ν → ℕ) (k : κ) (v : ν) {l : List (κ × ν)}
    (h : l.Pairwise (fun a b => a.1 < b.1)) :
    ((insertList k v l).map g).sum + (findList k l).elim 0 (fun w => g (k, w)) =
      (l.map g).sum + g (k, v) := by
  induction l with
  | nil => simp [insertList, findList]
  | cons a l ih =>
    obtain ⟨a, w⟩ := a
    obtain ⟨hl, hr⟩ := List.pairwise_cons.mp h
    have hih := ih hr
    rw [insertList, findList]
    split_ifs with hlt heq heq
    · exact absurd hlt (by rw [heq]; exact lt_irrefl k)
    · have hnone : findList k l = none :=
        findList_eq_none_iff.mpr (fun p hp => (hlt.trans (hl p hp)).ne')
      rw [hnone, List.map_cons, List.sum_cons, Option.elim_none]
      exact Nat.add_comm (g (k, v)) _
    · rw [← heq, List.map_cons, List.sum_cons, List.map_cons, List.sum_cons, Option.elim_some]
      omega
    · rw [List.map_cons, List.sum_cons, List.map_cons, List.sum_cons]
      omega

end OrderedMap

namespace Memtable

def rowSize (overhead : ℕ) (p : Bytes × MemEntry) : ℕ := p.1.length + p.2.value.length + overhead

theorem bytes_ofRecords (overhead : ℕ) (rs : List Record) :
    (ofRecords overhead rs).overhead = overhead ∧ (ofRecords overhead rs).bytes =
      ((ofRecords overhead rs).map.entries.map (rowSize overhead)).sum := by
  induction rs using List.reverseRecOn with
  | nil => exact ⟨rfl, rfl⟩
  | append_singleton rs r ih =>
    obtain ⟨hover, hbytes⟩ := ih
    rw [ofRecords_snoc, applyRecord, map_apply]
    have hsum := sum_insertList (rowSize overhead) r.key (⟨r.value, r.seqno, r.del⟩ : MemEntry)
      (ofRecords overhead rs).map.sorted
    have hentries : ((ofRecords overhead rs).map.insert r.key ⟨r.value, r.seqno, r.del⟩).entries =
      insertList r.key ⟨r.value, r.seqno, r.del⟩ (ofRecords overhead rs).map.entries := rfl
    rw [apply, hentries]
    rcases hfind : (ofRecords overhead rs).map.find? r.key with _ | old
    · have hlist : findList r.key (ofRecords overhead rs).map.entries = none := hfind
      rw [hlist, Option.elim_none] at hsum
      refine ⟨hover, ?_⟩
      show (ofRecords overhead rs).bytes + (ofRecords overhead rs).entrySize r.key r.value = _
      rw [entrySize, hover, hbytes]
      exact hsum.symm
    · have hlist : findList r.key (ofRecords overhead rs).map.entries = some old := hfind
      rw [hlist, Option.elim_some] at hsum
      refine ⟨hover, ?_⟩
      show (ofRecords overhead rs).bytes - (ofRecords overhead rs).entrySize r.key old.value +
        (ofRecords overhead rs).entrySize r.key r.value = _
      have hold : rowSize overhead (r.key, old) ≤ (ofRecords overhead rs).bytes := by
        rw [hbytes]
        exact List.le_sum_of_mem (List.mem_map_of_mem (find?_eq_some_iff.mp hfind))
      have hsizes : ∀ e : MemEntry, (ofRecords overhead rs).entrySize r.key e.value =
          rowSize overhead (r.key, e) := by
        intro e
        rw [entrySize, hover]
        rfl
      rw [hsizes, hsizes ⟨r.value, r.seqno, r.del⟩]
      omega

/-- The last records count no more than all of them. -/
theorem bytes_le_append (overhead : ℕ) (rs ts : List Record) :
    (ofRecords overhead ts).bytes ≤ (ofRecords overhead (rs ++ ts)).bytes := by
  rw [(bytes_ofRecords overhead ts).2, (bytes_ofRecords overhead (rs ++ ts)).2]
  have hsub : (ofRecords overhead ts).map.entries ⊆
      (ofRecords overhead (rs ++ ts)).map.entries := by
    rintro ⟨k, e⟩ hp
    have hfind := find?_eq_some_iff.mpr hp
    refine find?_eq_some_iff.mp ?_
    rw [find?_ofRecords, Option.map_eq_some_iff] at hfind
    obtain ⟨r, hr, rfl⟩ := hfind
    rw [find?_ofRecords, List.reverse_append, List.find?_append, hr]
    rfl
  have hnodup : (ofRecords overhead ts).map.entries.Nodup :=
    (ofRecords overhead ts).map.sorted.imp (fun hlt heq => hlt.ne (congrArg Prod.fst heq))
  obtain ⟨l, hperm, hsublist⟩ := List.subperm_of_subset hnodup hsub
  rw [← (hperm.map (rowSize overhead)).sum_eq]
  exact (hsublist.map (rowSize overhead)).sum_le_sum (fun _ _ => Nat.zero_le _)

end Memtable

namespace Config

variable {c : Config}

theorem Full.of_suffix {rs ts : List Record} (h : c.Full ts) : c.Full (rs ++ ts) :=
  h.trans (Memtable.bytes_le_append c.overheadBytesPerEntry rs ts)

/-- The end of a run of records without a cut has none. -/
theorem Growing.of_suffix {rs ts : List Record} (h : c.Growing (rs ++ ts)) : c.Growing ts := by
  rintro s t rfl hs ht hfull
  exact h (rs ++ s) t (List.append_assoc rs s t).symm (by simp [hs]) ht hfull.of_suffix

end Config
end LsmKv
