import LsmKv.EngineCompaction

/-!
# Compaction is transparent

Over tables whose ranges of sequence numbers are apart, swapping a window for its merge changes
no answer, keeps the newest row of every key it keeps, and leaves the ranges apart.
-/

namespace LsmKv
open Sst (TableMeta)
open OrderedMap

/-- Newest first, with no two ranges of sequence numbers in touch. -/
def Separated (ts : List TableMeta) : Prop := ts.Pairwise (fun a b => b.maxSeqno < a.minSeqno)

instance (ts : List TableMeta) : Decidable (Separated ts) :=
  inferInstanceAs (Decidable (ts.Pairwise _))

theorem separated_iff {ts : List LiveTable} : Separated (ts.map (·.info)) ↔
    ts.Pairwise (fun T U => U.info.maxSeqno < T.info.minSeqno) := List.pairwise_map

theorem Separated.newest {ts : List LiveTable} (h : Separated (ts.map (·.info))) : Newest ts :=
  newest_iff.mpr ((separated_iff.mp h).imp (fun {T _} hlt => hlt.trans_le T.min_le_max))

/-- With ranges apart, the first hit for a key is its newest row. -/
theorem Separated.le_of_tableHit {ts : List LiveTable} (h : Separated (ts.map (·.info)))
    {k : Bytes} {e : MemEntry} (he : tableHit k ts = some e) {T : LiveTable} (hT : T ∈ ts)
    {e' : MemEntry} (he' : T.rows.find? k = some e') : e'.seqno ≤ e.seqno := by
  have hpair := separated_iff.mp h
  clear h
  induction ts with
  | nil => cases hT
  | cons U ts ih =>
    obtain ⟨hU, hts⟩ := List.pairwise_cons.mp hpair
    rw [tableHit_cons] at he
    rcases hfind : U.rows.find? k with _ | w
    · rw [hfind, Option.none_or] at he
      rcases List.mem_cons.mp hT with rfl | hT
      · rw [hfind] at he'
        cases he'
      · exact ih he hT hts
    · rw [hfind, Option.some_or] at he
      obtain rfl := Option.some.inj he
      rcases List.mem_cons.mp hT with rfl | hT
      · rw [hfind] at he'
        rw [Option.some.inj he']
      · have hold := LiveTable.seqno_le he'
        have hnew := LiveTable.le_seqno hfind
        have := hU T hT
        omega

/-- What compacting `inputs` promises, when `M'` is the new table set and `out` the output. -/
structure Transparent (front inputs back : List LiveTable) (out : Option LiveTable)
    (M' : List LiveTable) : Prop where
  reads : ∀ k, (tableHit k M').bind MemEntry.result =
    (tableHit k (front ++ (inputs ++ back))).bind MemEntry.result
  kept : ∀ T ∈ out, ∀ k r, T.rows.find? k = some r →
    (∃ U ∈ inputs, U.rows.find? k = some r) ∧
      ∀ U ∈ inputs, ∀ r', U.rows.find? k = some r' → r'.seqno ≤ r.seqno
  placed : M' = front ++ (out.toList ++ back)
  separated : Separated (M'.map (·.info))

section
variable {front inputs back : List LiveTable} {gone : MemEntry → Bool} {out : Option LiveTable}

/-- A tombstone goes only when no table is behind the inputs. -/
theorem Merges.reads (h : Merges (front ++ back) inputs gone out)
    (hsep : Separated ((front ++ (inputs ++ back)).map (·.info))) (k : Bytes) :
    (tableHit k (front ++ (out.toList ++ back))).bind MemEntry.result =
      (tableHit k (front ++ (inputs ++ back))).bind MemEntry.result := by
  rw [tableHit_append, tableHit_append, tableHit_append, tableHit_append, h.rows k]
  rcases hfront : tableHit k front with _ | e
  · rcases hin : tableHit k inputs with _ | e
    · rfl
    · rcases hgone : gone e with _ | _
      · rw [Option.filter_some, hgone]
        rfl
      · have hnone : tableHit k back = none := by
          refine tableHit_eq_none.mpr (fun T hT => ?_)
          exfalso
          obtain ⟨U, hU, hkU⟩ := exists_of_tableHit hin
          have hnew := h.newer e hgone T (List.mem_append_right _ hT)
          have hlt := (List.pairwise_append.mp
            (List.pairwise_append.mp (separated_iff.mp hsep)).2.1).2.2 U hU T hT
          have hseq := LiveTable.le_seqno hkU
          have := T.min_le_max
          omega
        simp [Option.filter_some, hgone, hnone, MemEntry.result, h.tombstone e hgone]
  · simp

/-- The output's range is within that of the inputs. -/
theorem Merges.separated (h : Merges (front ++ back) inputs gone out) (hne : inputs ≠ [])
    (hsep : Separated ((front ++ (inputs ++ back)).map (·.info)))
    (h64 : ∀ T ∈ back, T.info.maxSeqno + 1 < 2 ^ 64) :
    Separated ((front ++ (out.toList ++ back)).map (·.info)) := by
  have hnewest := newest_iff.mp (h.placed hne hsep.newest)
  obtain ⟨hfront, hinner, hfi⟩ := List.pairwise_append.mp (separated_iff.mp hsep)
  obtain ⟨hinputs, hback, hib⟩ := List.pairwise_append.mp hinner
  have hof : ∀ T ∈ out, ∀ k r, T.rows.find? k = some r → ∃ U ∈ inputs, U.rows.find? k = some r :=
    fun T hT k r hr => exists_of_tableHit (h.of_find? hT hr)
  rw [separated_iff]
  refine List.pairwise_append.mpr ⟨hfront, List.pairwise_append.mpr ⟨?_, hback, ?_⟩, ?_⟩
  · rcases out with _ | T
    · exact .nil
    · exact List.pairwise_singleton _ _
  · intro T hT U hU
    refine T.le_min (U.info.maxSeqno + 1) (h64 U hU) (fun p hp => ?_)
    obtain ⟨V, hV, hpV⟩ := hof T (Option.mem_toList.mp hT) p.1 p.2 (find?_eq_some_iff.mpr hp)
    exact (hib V hV U hU).trans_le (LiveTable.le_seqno hpV)
  · intro F hF T hT
    rcases List.mem_append.mp hT with hT | hT
    · obtain ⟨k, r, hk, hr⟩ := T.exists_top
      obtain ⟨V, hV, hkV⟩ := hof T (Option.mem_toList.mp hT) k r hk
      have hle := LiveTable.seqno_le hkV
      have := hfi F hF V (List.mem_append_left _ hV)
      omega
    · exact hfi F hF T (List.mem_append_right _ hT)

theorem Merges.transparent (h : Merges (front ++ back) inputs gone out) (hne : inputs ≠ [])
    (hsep : Separated ((front ++ (inputs ++ back)).map (·.info)))
    (h64 : ∀ T ∈ back, T.info.maxSeqno + 1 < 2 ^ 64) :
    Transparent front inputs back out (front ++ (out.toList ++ back)) where
  reads := h.reads hsep
  kept T hT k r hr := by
    have hhit := h.of_find? hT hr
    have hin : Separated (inputs.map (·.info)) := separated_iff.mpr (List.pairwise_append.mp
      (List.pairwise_append.mp (separated_iff.mp hsep)).2.1).1
    exact ⟨exists_of_tableHit hhit, fun U hU r' hr' => hin.le_of_tableHit hhit hU hr'⟩
  placed := rfl
  separated := h.separated hne hsep h64

end

/-! ## The engine's merge, filter and manifest edit -/

section
variable {e : Engine} {M D : List LiveTable} {ids : List ℕ}
  {front inputs back : List LiveTable}

/-- Where the new tables stand in the manifest. -/
theorem Holds.applyCompaction_tables (h : Holds e M D)
    (hs : Selects M ids front inputs back) {out : Option LiveTable}
    (hd : Newest (front ++ (out.toList ++ back))) :
    (e.manifest.applyCompaction e.config.sort ids (out.map (·.info))).tables =
      (front ++ (out.toList ++ back)).map (·.info) := by
  show e.config.sort.run (e.manifest.tables.filter (fun t => t.id ∉ ids) ++
    (out.map (·.info)).toList) = _
  rw [h.outside hs]
  refine TableSort.run_eq _ ?_ hd
  have hout : (out.map (·.info)).toList = out.toList.map (·.info) := by
    rcases out with _ | T <;> rfl
  rw [hout, ← List.map_append, List.append_assoc]
  exact ((List.perm_append_comm).append_left front).map _

/-- Only `restart_interval = 0` keeps the output from being written. -/
theorem exists_writeOutput (h : e.config.restartInterval ≠ 0) (final : Memtable) (created : ℕ) :
    ∃ e' added, e.writeOutput final created = .ok (e', added) := by
  by_cases hempty : final.entries = 0
  · exact ⟨e, none, by rw [Engine.writeOutput, if_pos hempty]⟩
  · obtain ⟨first, rest, hrows⟩ :=
      List.exists_cons_of_ne_nil (fun hnil => hempty (congrArg List.length hnil))
    have hinterval : ¬(e.config.sst final.entries).restartInterval = 0 := h
    rw [Engine.writeOutput, if_neg hempty, Engine.writeSstable, Sst.writeSstable, hrows]
    simp only [if_neg hinterval]
    exact ⟨_, _, rfl⟩

end

/-- A table of one row. -/
def LiveTable.ofRow (id : ℕ) (key : Bytes) (row : MemEntry) : LiveTable where
  info := ⟨id, key, key, row.seqno, row.seqno, 0, 0, 1, .ten, 1⟩
  rows := ⟨[(key, row)], List.pairwise_singleton _ _⟩
  attained := ⟨(key, row), List.mem_singleton_self _, rfl⟩
  le_max p hp := by rw [List.mem_singleton.mp hp]
  min_le p hp := by rw [List.mem_singleton.mp hp]
  le_min n _ h := h (key, row) (List.mem_singleton_self _)
  keyed := ⟨(key, row), List.mem_singleton_self _, (key, row), List.mem_singleton_self _, rfl, rfl⟩

/-- A tombstone over the only value of its key. -/
def removedKey : List LiveTable :=
  [.ofRow 2 [97] ⟨[], 2, true⟩, .ofRow 1 [97] ⟨[1], 1, false⟩]

def removedKeyEngine : Engine :=
  let m : Manifest := ⟨3, 2, removedKey.map (·.info)⟩
  { Engine.loaded (Config.small 100 4 1000) {} with
    stored := some m
    files := ⟨removedKey.reverse.map (fun T => (T.info.id, T.rows)), by decide⟩
    manifest := m
    readers := m.tables }

theorem nodup_removedKey : (removedKey.map (·.info.id)).Nodup := by decide

theorem removedKey_holds : Holds removedKeyEngine removedKey removedKey where
  manifest := rfl
  readers := rfl
  files := by
    simp only [removedKey, List.cons_append, List.nil_append, List.forall_mem_cons]
    decide
  fresh := by decide
  inj T hT U hU hid := List.inj_on_of_nodup_map nodup_removedKey
    (by simpa using hT) (by simpa using hU) hid
  nodup := ⟨nodup_removedKey.of_map, nodup_removedKey.of_map⟩
  stored := List.Perm.refl _
  clean _ := rfl

end LsmKv
