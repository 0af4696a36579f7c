import LsmKv.ReopenedReads

/-!
# Merging every table

With nothing in memory and every table past its grace period, a compaction of all tables leaves
what the store answers and nothing else: one row for each key that has a value, in one table, and
no tombstone.
-/

namespace LsmKv
open Sst (TableMeta)
open OrderedMap

/-! ## A compaction that went through -/

/-- Erasing files brings none back. -/
theorem find?_deleteInput_none {held : List Version} {e : Engine} {r : TableMeta} {id : ℕ}
    (h : e.files.find? id = none) : (Engine.deleteInput held e r).files.find? id = none := by
  rw [Engine.deleteInput]
  split
  · exact h
  · show (e.files.erase r.id).find? id = none
    rw [find?_erase]
    split
    · rfl
    · exact h

/-- An input that no version refers to has no file left. -/
theorem find?_deleteInputs {held : List Version} {e : Engine} {rs : List TableMeta} {r : TableMeta}
    (hr : r ∈ rs) (hfree : ∀ v ∈ e.version :: held, ∀ t ∈ v.tables, t.id ≠ r.id) :
    (rs.foldl (Engine.deleteInput held) e).files.find? r.id = none := by
  have hgone : ∀ (rs : List TableMeta) (e : Engine), e.files.find? r.id = none →
      (rs.foldl (Engine.deleteInput held) e).files.find? r.id = none := by
    intro rs
    induction rs with
    | nil => exact fun _ h => h
    | cons a rs ih => exact fun e h => ih _ (find?_deleteInput_none h)
  induction rs generalizing e with
  | nil => cases hr
  | cons a rs ih =>
    rw [List.foldl_cons]
    rcases List.mem_cons.mp hr with rfl | hr
    · refine hgone rs _ ?_
      have hno : (e.version :: held).any (fun v => v.tables.any (fun t => t.id = r.id)) =
          false := by
        simpa only [List.any_eq_false, List.any_eq_true, decide_eq_true_eq, not_exists, not_and]
          using hfree
      rw [Engine.deleteInput, hno]
      show (e.files.erase r.id).find? r.id = none
      rw [find?_erase, if_pos rfl]
    · refine ih hr ?_
      obtain ⟨files, heq⟩ := deleteInput_eq held e a
      rw [heq]
      exact hfree

/-- What a compaction that returned a job did. -/
structure Ran (e : Engine) (M : List LiveTable) (choice : Option (List ℕ)) (now : ℕ) (e' : Engine)
    (job : CompactionJobResult) (ids : List ℕ) (inputs outside M' : List LiveTable)
    (out : Option LiveTable) : Prop where
  chosen : e.chooseInputs choice = .ok (some ids)
  selects : ∃ front back, outside = front ++ back ∧ Selects M ids front inputs back
  merges : Merges outside inputs (e.drops ids now) out
  holds : Holds e' M' M'
  perm : M'.Perm (outside ++ out.toList)
  keysOut : job.keysOut = (out.elim 0 (fun T => T.rows.entries.length))
  tombstonesKept : job.tombstonesKept =
    (out.elim 0 (fun T => (T.rows.entries.filter (fun r => r.2.tombstone)).length))
  deleted : ∀ r ∈ e.readers, r.id ∈ ids → e'.files.find? r.id = none

section
variable {e e' : Engine} {M D : List LiveTable} {choice : Option (List ℕ)} {now created : ℕ}
  {job : CompactionJobResult}

/-- The rows of the output are those of the memtable it was written from. -/
theorem Merges.entries_eq {outside inputs : List LiveTable} {gone : MemEntry → Bool}
    {out : Option LiveTable} (h : Merges outside inputs gone out) {final : Memtable}
    (hrows : ∀ k, final.map.find? k = (tableHit k inputs).filter (fun r => !gone r)) :
    final.map = out.elim ∅ (·.rows) := by
  refine ext_find? (fun k => ?_)
  rw [hrows, ← h.rows]
  rcases out with _ | T
  · rfl
  · rw [Option.toList_some, tableHit_cons, tableHit_nil, Option.or_none]
    rfl

theorem Holds.ran (h : Holds e M D)
    (hrun : e.runCompaction choice now created = (e', .ok (some job))) :
    ∃ ids inputs outside M' out, Ran e M choice now e' job ids inputs outside M' out := by
  rw [Engine.runCompaction, Engine.runCompactionAt] at hrun
  split at hrun
  · cases hrun
  split at hrun
  · cases hrun
  · cases hrun
  rename_i ids hchoice
  obtain ⟨front, inputs, back, hs⟩ := h.selects hchoice
  obtain ⟨final, merged, n, hmerge, hrows⟩ := h.mergeInputs hs now
  split at hrun
  · cases hrun
  rename_i final' merged' n' hscan
  obtain ⟨rfl, hrest⟩ := Prod.mk.inj (Except.ok.inj (hmerge.symm.trans (scanInputs_ok hscan)))
  obtain ⟨rfl, rfl⟩ := Prod.mk.inj hrest
  split at hrun
  · cases hrun
  rename_i e₁ added hwrite
  obtain ⟨out, rfl, hmerges, hadds, ⟨files, misindexed, rfl⟩, h₁⟩ :=
    h.writeOutput hrows (fun r hr => h.of_drops hs hr) hwrite
  obtain ⟨M', hperm, htables⟩ := exists_perm_map (f := LiveTable.info)
    (l := front ++ (back ++ out.toList)) (e.config.sort.perm _).symm
  have hedit := h₁.compactionEdit hs hadds hperm htables
  have hfinal := hmerges.entries_eq hrows
  rcases h₁.publishCompaction hedit with ⟨m, readers, -, hpub, h₂⟩ | ⟨m, hd, hpub, h₂⟩ <;>
    rw [Engine.publishCompaction] at hpub h₂ <;> rw [hpub] at hrun
  · rw [hpub] at h₂
    obtain ⟨rfl, hjob⟩ := Prod.mk.inj hrun
    obtain rfl := Option.some.inj (Except.ok.inj hjob)
    obtain ⟨h₃, -⟩ := h₂.deleteInputs rfl [] (e.readers.filter (fun r => r.id ∈ ids))
    refine ⟨ids, inputs, front ++ back, M', out, hchoice, ⟨front, back, rfl, hs⟩, hmerges, h₃, ?_,
      ?_, ?_, fun r hr hid => ?_⟩
    · rwa [List.append_assoc]
    · show final.entries = _
      rw [Memtable.entries, hfinal]
      rcases out with _ | T <;> rfl
    · show (final.map.entries.filter (fun r => r.2.tombstone)).length = _
      rw [hfinal]
      rcases out with _ | T <;> rfl
    · refine find?_deleteInputs (List.mem_filter.mpr ⟨hr, by simpa using hid⟩) (fun v hv t ht => ?_)
      obtain rfl := List.mem_singleton.mp hv
      have hlisted : readers = M'.map (·.info) := h₂.readers.symm
      obtain ⟨T, hT, rfl⟩ := List.mem_map.mp (hlisted ▸ ht)
      rw [hperm.mem_iff, ← List.append_assoc] at hT
      rcases List.mem_append.mp hT with hT | hT
      · exact fun heq => h.outside_id hs hT (heq ▸ hid)
      · obtain ⟨U, hU, rfl⟩ := List.mem_map.mp (h.readers ▸ hr)
        have hfresh := h.fresh U (List.mem_append_right _ hU)
        have hnext := (hadds T (Option.mem_toList.mp hT)).id
        exact fun heq => hfresh.ne (heq ▸ hnext)
  · cases hrun

/-! ## All tables -/

/-- The ids of all live tables select all of them. -/
theorem Holds.selects_all (h : Holds e M D) {front inputs back : List LiveTable}
    (hs : Selects M (e.manifest.tables.map (·.id)) front inputs back) :
    front ++ back = [] ∧ inputs = M := by
  have hids := congrArg List.length hs.ids
  rw [← h.manifest, List.length_map, List.length_map, List.length_map] at hids
  have hsplit := congrArg List.length hs.split
  rw [List.length_append, List.length_append] at hsplit
  obtain rfl : front = [] := List.length_eq_zero_iff.mp (by omega)
  obtain rfl : back = [] := List.length_eq_zero_iff.mp (by omega)
  refine ⟨rfl, ?_⟩
  rw [hs.split, List.nil_append, List.append_nil]

/-- Past the grace period of every table a merge of all of them drops every tombstone. -/
theorem Holds.drops_all (h : Holds e M D)
    (haged : ∀ t ∈ e.manifest.tables, e.config.tombstoneGraceSeconds + t.createdAt < now)
    (hsmall : ∀ t ∈ e.manifest.tables, t.maxSeqno < 2 ^ 64 - 1) {k : Bytes} {row : MemEntry}
    (hrow : tableHit k M = some row) (htomb : row.tombstone = true) :
    e.drops (e.manifest.tables.map (·.id)) now row = true := by
  obtain ⟨T, hT, hfind⟩ := exists_of_tableHit hrow
  have hlisted : T.info ∈ e.manifest.tables := h.mem_manifest hT
  have hinputs : e.inputMeta (e.manifest.tables.map (·.id)) = e.manifest.tables :=
    inputMeta_of_nodup h.nodup_ids (fun t ht => ht)
  have houtside : Compaction.outsideOldestMinSeqno e.manifest.tables
      (e.manifest.tables.map (·.id)) = 2 ^ 64 - 1 := by
    have hnone : e.manifest.tables.filter (fun t => t.id ∉ e.manifest.tables.map (·.id)) = [] :=
      List.filter_eq_nil_iff.mpr (fun t ht => by simpa using ⟨t, ht, rfl⟩)
    rw [Compaction.outsideOldestMinSeqno, hnone]
    rfl
  have hsource : e.config.tombstoneGraceSeconds +
      Compaction.sourceCreatedAt e.manifest.tables now row.seqno < now := by
    rcases hsrc : e.manifest.tables.find?
      (fun t => t.minSeqno ≤ row.seqno && row.seqno ≤ t.maxSeqno) with _ | t
    · have hno := List.find?_eq_none.mp hsrc T.info hlisted
      simp only [Bool.and_eq_true, decide_eq_true_eq, not_and] at hno
      exact absurd (LiveTable.seqno_le hfind) (hno (LiveTable.le_seqno hfind))
    · rw [Compaction.sourceCreatedAt, hsrc]
      exact haged t (List.mem_of_find?_eq_some hsrc)
  rw [Engine.drops, hinputs, houtside, Compaction.dropsTombstone, htomb, decide_eq_true hsource,
    decide_eq_true ((LiveTable.seqno_le hfind).trans_lt (hsmall _ hlisted))]
  rfl

/-- The tables say what `V` says and nothing more: at most one table, a row for each key that has
a value, no tombstone. -/
structure Exact (V : Bytes → Option Bytes) (e : Engine) : Prop where
  one : e.manifest.tables.length ≤ 1
  sound : ∀ t ∈ e.manifest.tables, ∃ rows, e.files.find? t.id = some rows ∧
    ∀ k row, rows.find? k = some row → row.tombstone = false ∧ V k = some row.value
  complete : ∀ k v, V k = some v → ∃ t ∈ e.manifest.tables, ∃ rows row,
    e.files.find? t.id = some rows ∧ rows.find? k = some row ∧ row.value = v

/-- What the job line says of such a merge. -/
structure CountsLive (V : Bytes → Option Bytes) (job : CompactionJobResult) : Prop where
  keysOut : ∃ keys : List Bytes, keys.Nodup ∧ (∀ k, k ∈ keys ↔ (V k).isSome = true) ∧
    job.keysOut = keys.length
  tombstonesKept : job.tombstonesKept = 0

theorem result_eq_some {row : MemEntry} {v : Bytes} :
    row.result = some v ↔ row.tombstone = false ∧ row.value = v := by
  rw [MemEntry.result]
  rcases row.tombstone with _ | _ <;> simp

end

section
variable {V : Bytes → Option Bytes} {e' : Engine} {M' : List LiveTable} {out : Option LiveTable}
  {job : CompactionJobResult}

/-- A table whose rows are the answers, or none where there are no answers. -/
theorem exact_of_out (h : Holds e' M' M') (hM : M' = out.toList)
    (hout : ∀ k v, (∃ row, tableHit k out.toList = some row ∧ row.tombstone = false ∧
      row.value = v) ↔ V k = some v)
    (hlive : ∀ T ∈ out, ∀ k row, T.rows.find? k = some row → row.tombstone = false) :
    Exact V e' := by
  have htables : e'.manifest.tables = out.toList.map (·.info) := by rw [← h.manifest, hM]
  have hfile : ∀ T ∈ out, e'.files.find? T.info.id = some T.rows := fun T hT =>
    h.files T (List.mem_append_left _ (hM ▸ Option.mem_toList.mpr hT))
  have hhit : ∀ T ∈ out, ∀ k, tableHit k out.toList = T.rows.find? k := by
    rintro T hT k
    obtain rfl := Option.mem_def.mp hT
    rw [Option.toList_some, tableHit_cons, tableHit_nil, Option.or_none]
  refine ⟨?_, fun t ht => ?_, fun k v hv => ?_⟩
  · rw [htables]
    rcases out with _ | T <;> simp
  · rw [htables] at ht
    obtain ⟨T, hT, rfl⟩ := List.mem_map.mp ht
    have hT := Option.mem_toList.mp hT
    refine ⟨T.rows, hfile T hT, fun k row hrow => ?_⟩
    have hno := hlive T hT k row hrow
    exact ⟨hno, (hout k _).mp ⟨row, (hhit T hT k).trans hrow, hno, rfl⟩⟩
  · obtain ⟨row, hrow, -, hvalue⟩ := (hout k v).mpr hv
    obtain ⟨T, hT, hfind⟩ := exists_of_tableHit hrow
    refine ⟨T.info, ?_, T.rows, row, hfile T (Option.mem_toList.mp hT), hfind, hvalue⟩
    rw [htables]
    exact List.mem_map_of_mem hT

theorem countsLive_of_out {e : Engine} {M inputs outside : List LiveTable}
    {choice : Option (List ℕ)} {now : ℕ} {ids : List ℕ}
    (hran : Ran e M choice now e' job ids inputs outside M' out)
    (hout : ∀ k v, (∃ row, tableHit k out.toList = some row ∧ row.tombstone = false ∧
      row.value = v) ↔ V k = some v)
    (hlive : ∀ T ∈ out, ∀ k row, T.rows.find? k = some row → row.tombstone = false) :
    CountsLive V job := by
  constructor
  · refine ⟨out.elim [] (fun T => T.rows.keys), ?_, fun k => ?_, ?_⟩
    · rcases out with _ | T
      · exact .nil
      · have hsorted : T.rows.keys.Pairwise (· < ·) := List.pairwise_map.mpr T.rows.sorted
        exact hsorted.imp (fun hlt => hlt.ne)
    · rw [Option.isSome_iff_exists]
      simp only [← hout]
      rcases out with _ | T
      · simp
      · simp only [Option.elim_some, Option.toList_some, tableHit_cons, tableHit_nil,
          Option.or_none, OrderedMap.keys, List.mem_map]
        constructor
        · rintro ⟨⟨k, row⟩, hmem, rfl⟩
          have hrow := find?_eq_some_iff.mpr hmem
          exact ⟨row.value, row, hrow, hlive T rfl k row hrow, rfl⟩
        · rintro ⟨v, row, hrow, -⟩
          exact ⟨(k, row), find?_eq_some_iff.mp hrow, rfl⟩
    · rw [hran.keysOut]
      rcases out with _ | T
      · rfl
      · exact (List.length_map _).symm
  · rw [hran.tombstonesKept]
    rcases out with _ | T
    · rfl
    · refine List.length_eq_zero_iff.mpr (List.filter_eq_nil_iff.mpr (fun p hp => ?_))
      rw [hlive T rfl p.1 p.2 (find?_eq_some_iff.mpr hp)]
      exact Bool.false_ne_true

end

/-- Two keys, one of them removed, and a table for each of the four writes. -/
def fourTables : List Call :=
  [.put [97] [1], .flushOne 5, .put [98] [2], .flushOne 5, .remove [97], .flushOne 5,
    .put [98] [3], .flushOne 5]

end LsmKv
