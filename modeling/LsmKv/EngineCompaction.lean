import LsmKv.EngineTables
import LsmKv.ExplicitInputs

/-!
# What a compaction does to the live tables

The inputs are adjacent tables; the output holds their merged rows less the tombstones that
are old enough and older than everything outside; one manifest edit swaps the one for the
others, and only then do input files go.
-/

namespace LsmKv
open Sst (TableMeta)
open OrderedMap

/-- The chosen ids split the live tables. -/
structure Selects (M : List LiveTable) (ids : List ℕ) (front inputs back : List LiveTable) :
    Prop where
  split : M = front ++ (inputs ++ back)
  ids : ids = inputs.map (·.info.id)
  nonempty : inputs ≠ []

section
variable {e : Engine} {M D : List LiveTable} {ids : List ℕ}
  {front inputs back : List LiveTable}

theorem Selects.mem (h : Selects M ids front inputs back) {T : LiveTable} :
    T ∈ M ↔ T ∈ front ++ back ∨ T ∈ inputs := by
  rw [h.split]
  simp only [List.mem_append]
  tauto

theorem Selects.perm (h : Selects M ids front inputs back) :
    M.Perm (inputs ++ (front ++ back)) := by
  rw [h.split, ← List.append_assoc, ← List.append_assoc]
  exact (List.perm_append_comm).append_right _

theorem window_of_chooseInputs {choice : Option (List ℕ)}
    (hc : e.chooseInputs choice = .ok (some ids)) :
    Compaction.Window e.manifest.tables ids := by
  rcases choice with _ | explicit
  · obtain ⟨pick, hpick, rfl⟩ := Option.map_eq_some_iff.mp (Except.ok.inj hc)
    exact Compaction.pickCompaction_window hpick
  · rw [Engine.chooseInputs] at hc
    rcases hx : Compaction.explicitInputs e.manifest.tables explicit with x | out
    · rw [hx] at hc
      cases hc
    · rw [hx] at hc
      obtain rfl := Option.some.inj (Except.ok.inj hc)
      exact Compaction.explicitInputs_window hx

theorem Holds.selects (h : Holds e M D) {choice : Option (List ℕ)}
    (hc : e.chooseInputs choice = .ok (some ids)) :
    ∃ front inputs back, Selects M ids front inputs back := by
  obtain ⟨front, ins, back, hsplit, hids, hne⟩ := window_of_chooseInputs hc
  rw [← h.manifest] at hsplit
  obtain ⟨F, rest, hM, rfl, hrest⟩ := List.map_eq_append_iff.mp hsplit
  obtain ⟨I, B, rfl, rfl, rfl⟩ := List.map_eq_append_iff.mp hrest
  refine ⟨F, I, B, hM, ?_, fun hnil => hne (by rw [hnil]; rfl)⟩
  rw [hids, List.map_map]
  rfl

/-! ## Metadata of the inputs and of the rest -/

theorem Holds.nodup_ids (h : Holds e M D) : (e.manifest.tables.map (·.id)).Nodup := by
  rw [← h.manifest, List.map_map]
  exact h.nodup.1.map_on (fun T hT U hU hid =>
    h.inj T (List.mem_append_left _ hT) U (List.mem_append_left _ hU) hid)

theorem Holds.inputMeta (h : Holds e M D) (hs : Selects M ids front inputs back) :
    e.inputMeta ids = inputs.map (·.info) := by
  have hids : ids = (inputs.map (·.info)).map (·.id) := by
    rw [List.map_map]
    exact hs.ids
  rw [hids]
  refine inputMeta_of_nodup h.nodup_ids (fun t ht => ?_)
  obtain ⟨T, hT, rfl⟩ := List.mem_map.mp ht
  exact h.mem_manifest (hs.mem.mpr (.inr hT))

theorem Holds.outside_id (h : Holds e M D) (hs : Selects M ids front inputs back)
    {T : LiveTable} (hT : T ∈ front ++ back) : T.info.id ∉ ids := by
  intro hmem
  rw [hs.ids] at hmem
  obtain ⟨U, hU, hid⟩ := List.mem_map.mp hmem
  have hUT : U = T := h.inj U (List.mem_append_left _ (hs.mem.mpr (.inr hU))) T
    (List.mem_append_left _ (hs.mem.mpr (.inl hT))) hid
  have hnodup := hs.perm.nodup_iff.mp h.nodup.1
  exact List.disjoint_of_nodup_append hnodup (hUT ▸ hU) hT

theorem Holds.outside (h : Holds e M D) (hs : Selects M ids front inputs back) :
    e.manifest.tables.filter (fun t => t.id ∉ ids) = (front ++ back).map (·.info) := by
  have hkeep : ∀ ts : List LiveTable, (∀ T ∈ ts, T.info.id ∉ ids) →
      (ts.map (·.info)).filter (fun t => t.id ∉ ids) = ts.map (·.info) := by
    intro ts hts
    refine List.filter_eq_self.mpr (fun t ht => ?_)
    obtain ⟨T, hT, rfl⟩ := List.mem_map.mp ht
    simpa using hts T hT
  have hdrop : (inputs.map (·.info)).filter (fun t => t.id ∉ ids) = [] := by
    refine List.filter_eq_nil_iff.mpr (fun t ht => ?_)
    obtain ⟨T, hT, rfl⟩ := List.mem_map.mp ht
    have hid : T.info.id ∈ ids := hs.ids ▸ List.mem_map_of_mem (f := fun T => T.info.id) hT
    simpa using hid
  rw [← h.manifest, hs.split, List.map_append, List.map_append, List.filter_append,
    List.filter_append, hdrop, List.nil_append, List.map_append,
    hkeep front (fun T hT => h.outside_id hs (List.mem_append_left _ hT)),
    hkeep back (fun T hT => h.outside_id hs (List.mem_append_right _ hT))]

theorem foldl_min_seqno (ts : List TableMeta) (m : ℕ) :
    ts.foldl (fun m t => min m t.minSeqno) m ≤ m ∧
      ∀ t ∈ ts, ts.foldl (fun m t => min m t.minSeqno) m ≤ t.minSeqno := by
  induction ts generalizing m with
  | nil => exact ⟨le_rfl, by simp⟩
  | cons a ts ih =>
    obtain ⟨hm, hts⟩ := ih (min m a.minSeqno)
    refine ⟨hm.trans (min_le_left _ _), fun t ht => ?_⟩
    rcases List.mem_cons.mp ht with rfl | ht
    · exact hm.trans (min_le_right _ _)
    · exact hts t ht

/-! ## The merge -/

/-- A row the merge leaves out is a tombstone older than every table outside. -/
theorem Holds.of_drops (h : Holds e M D) (hs : Selects M ids front inputs back) {now : ℕ}
    {r : MemEntry} (hd : e.drops ids now r = true) :
    r.tombstone = true ∧ ∀ T ∈ front ++ back, r.seqno < T.info.minSeqno := by
  rw [Engine.drops, Compaction.dropsTombstone, Bool.and_eq_true, Bool.and_eq_true,
    decide_eq_true_eq, decide_eq_true_eq] at hd
  obtain ⟨⟨htomb, -⟩, hlt⟩ := hd
  refine ⟨htomb, fun T hT => hlt.trans_le ?_⟩
  rw [Compaction.outsideOldestMinSeqno, h.outside hs]
  exact (foldl_min_seqno _ _).2 _ (List.mem_map_of_mem hT)

theorem Holds.mergeInputs (h : Holds e M D) (hs : Selects M ids front inputs back) (now : ℕ) :
    ∃ final merged n, e.mergeInputs ids now = .ok (final, merged, n) ∧
      ∀ k, final.map.find? k =
        (tableHit k inputs).filter (fun r => !e.drops ids now r) := by
  have hscan : Engine.scanTables e.files (inputs.map (·.info)) = .ok (inputs.map (·.rows)) :=
    scanTables_eq (fun T hT => h.files T (List.mem_append_left _ (hs.mem.mpr (.inr hT))))
  rw [Engine.mergeInputs, h.inputMeta hs, hscan]
  refine ⟨_, _, _, rfl, fun k => ?_⟩
  rw [Memtable.map_finalTable, find?_filter, Memtable.map_merged, find?_overlay]
  rfl

/-- The output as a table, or nothing if no row is left. -/
theorem Holds.writeOutput (h : Holds e M D) {outside : List LiveTable} {gone : MemEntry → Bool}
    {final : Memtable} {created : ℕ} {e' : Engine} {added : Option TableMeta}
    (hrows : ∀ k, final.map.find? k = (tableHit k inputs).filter (fun r => !gone r))
    (hgone : ∀ r, gone r = true → r.tombstone = true ∧ ∀ T ∈ outside, r.seqno < T.info.minSeqno)
    (hw : e.writeOutput final created = .ok (e', added)) :
    ∃ out : Option LiveTable, out.map (·.info) = added ∧ Merges outside inputs gone out ∧
      (∀ T ∈ out, Adds e' T) ∧
      (∃ files misindexed, e' = { e with files := files, misindexed := misindexed }) ∧
      Holds e' M D := by
  rw [Engine.writeOutput] at hw
  split at hw
  · rename_i hempty
    obtain ⟨rfl, rfl⟩ := Prod.mk.inj (Except.ok.inj hw)
    refine ⟨none, rfl, ⟨fun k => ?_, fun r hr => (hgone r hr).1, fun r hr => (hgone r hr).2⟩,
      by simp, ⟨_, _, rfl⟩, h⟩
    rw [← hrows k]
    exact (find?_eq_none_iff.mpr (by simp [List.length_eq_zero_iff.mp hempty])).symm
  · split at hw
    · cases hw
    rename_i e'' r hwrite
    obtain ⟨rfl, rfl⟩ := Prod.mk.inj (Except.ok.inj hw)
    obtain ⟨rfl, T, hinfo, hT, hid⟩ := writeSstable_eq hwrite created
    refine ⟨some T, congrArg some hinfo,
      ⟨fun k => ?_, fun r hr => (hgone r hr).1, fun r hr => (hgone r hr).2⟩, ?_, ⟨_, _, rfl⟩,
      h.write _⟩
    · rw [Option.toList_some, tableHit_cons, tableHit_nil, Option.or_none, hT]
      exact hrows k
    · intro U hU
      obtain rfl := Option.some.inj hU
      refine ⟨hid, ?_⟩
      show (e.files.insert e.manifest.nextSstId final.map).find? T.info.id = _
      rw [hid, find?_insert_self, hT]

/-! ## Publishing and deleting -/

theorem Holds.compactionEdit (h : Holds e M D) (hs : Selects M ids front inputs back)
    {out : Option LiveTable} (hout : ∀ T ∈ out, Adds e T) {M' : List LiveTable}
    (hperm : M'.Perm (front ++ (back ++ out.toList)))
    (htables : M'.map (·.info) =
      e.config.sort.run ((front ++ (back ++ out.toList)).map (·.info))) :
    Edit e M (e.manifest.applyCompaction e.config.sort ids (out.map (·.info))) out M' := by
  have hnext : e.manifest.nextSstId ≤
      (e.manifest.applyCompaction e.config.sort ids (out.map (·.info))).nextSstId ∧
      ∀ T ∈ out, T.info.id <
        (e.manifest.applyCompaction e.config.sort ids (out.map (·.info))).nextSstId := by
    rcases out with _ | T
    · exact ⟨le_rfl, by simp⟩
    · refine ⟨le_max_left _ _, fun U hU => ?_⟩
      obtain rfl := Option.some.inj hU
      exact (Nat.lt_succ_self _).trans_le (le_max_right _ _)
  have hfrom : ∀ T ∈ front ++ back, T ∈ M := fun T hT => hs.mem.mpr (.inl hT)
  refine ⟨?_, hnext.1, fun T hT => ⟨hout T hT, hnext.2 T hT⟩, fun T hT => ?_, ?_⟩
  · rw [htables]
    show _ = e.config.sort.run (e.manifest.tables.filter (fun t => t.id ∉ ids) ++
      (out.map (·.info)).toList)
    have hmap : ((front ++ back) ++ out.toList).map LiveTable.info =
        (front ++ back).map LiveTable.info ++ out.toList.map LiveTable.info := List.map_append
    rw [h.outside hs, ← List.append_assoc, hmap]
    rcases out with _ | T <;> rfl
  · rw [hperm.mem_iff, ← List.append_assoc] at hT
    rcases List.mem_append.mp hT with hT | hT
    · exact .inl (hfrom T hT)
    · exact .inr (Option.mem_toList.mp hT)
  · rw [hperm.nodup_iff, ← List.append_assoc]
    refine List.Nodup.append ?_ ?_ ?_
    · exact (List.nodup_append.mp (hs.perm.nodup_iff.mp h.nodup.1)).2.1
    · rcases out with _ | T <;> simp
    · intro T hT hT'
      exact h.not_mem_of_adds (hout T (Option.mem_toList.mp hT'))
        (List.mem_append_left _ (hfrom T hT))

/-- A rebuilt reader list is that of the manifest. -/
theorem Edit.readers {m : Manifest} {out : Option LiveTable} {M' : List LiveTable}
    (hm : Edit e M m out M') (h : Holds e M D) :
    m.tables.map (fun t => (e.readers.find? (fun r => r.id = t.id)).getD t) = m.tables := by
  have hsame : ∀ t ∈ m.tables, (e.readers.find? (fun r => r.id = t.id)).getD t = t := by
    intro t ht
    rw [← hm.tables] at ht
    obtain ⟨T, hT, rfl⟩ := List.mem_map.mp ht
    rcases hfind : e.readers.find? (fun r => r.id = T.info.id) with _ | r
    · rw [hfind, Option.getD_none]
    · have hid : r.id = T.info.id := by simpa using List.find?_some hfind
      have hmem := List.mem_of_find?_eq_some hfind
      rw [← h.readers] at hmem
      obtain ⟨U, hU, rfl⟩ := List.mem_map.mp hmem
      rw [hfind, hm.inj h (List.mem_append_right _ hU) (List.mem_append_left _ hT) hid,
        Option.getD_some]
  exact (List.map_congr_left hsame).trans (List.map_id' _)

/-- Publishing a compaction: it is written down and the readers follow, or only the manifest
in memory is edited. -/
theorem Holds.publishCompaction (h : Holds e M D) {out : Option LiveTable} {M' : List LiveTable}
    (hm : Edit e M (e.manifest.applyCompaction e.config.sort ids (out.map (·.info))) out M') :
    (∃ m readers, m = e.manifest.applyCompaction e.config.sort ids (out.map (·.info)) ∧
      e.publishCompaction ids (out.map (·.info)) = ({ e with
        manifest := m
        stored := some m
        readers := readers
        version := ⟨e.immutables, readers⟩ }, .ok (e.readers.filter (fun r => r.id ∈ ids))) ∧
      Holds (e.publishCompaction ids (out.map (·.info))).1 M' M') ∨
    (∃ m, ¬m.dumps e.config.isUtf8 = true ∧
      e.publishCompaction ids (out.map (·.info)) = ({ e with manifest := m }, .error .json) ∧
      Holds (e.publishCompaction ids (out.map (·.info))).1 M' D) := by
  rw [Engine.publishCompaction, Engine.publishCompactionAt, Engine.saveAt]
  by_cases hd : (e.manifest.applyCompaction e.config.sort ids (out.map (·.info))).dumps
      e.config.isUtf8 = true
  · rw [if_pos hd]
    exact .inl ⟨_, _, rfl, rfl, hm.saved h rfl (hm.readers h) rfl rfl⟩
  · rw [if_neg hd]
    exact .inr ⟨_, hd, rfl, hm.failed h hd⟩

/-- Deleting an input spares what the current version refers to. -/
theorem Holds.deleteInput (h : Holds e M M) (hv : e.version.tables = e.readers)
    (held : List Version) (r : TableMeta) : Holds (Engine.deleteInput held e r) M M := by
  rw [Engine.deleteInput]
  split
  · exact h
  rename_i hfree
  refine ⟨h.manifest, h.readers, fun T hT => ?_, h.fresh, h.inj, h.nodup, h.stored, h.clean⟩
  have hne : r.id ≠ T.info.id := by
    intro hid
    refine hfree (List.any_eq_true.mpr ⟨e.version, List.mem_cons_self, ?_⟩)
    refine List.any_eq_true.mpr ⟨T.info, ?_, by simpa using hid.symm⟩
    rw [hv, ← h.readers]
    exact List.mem_map_of_mem ((List.mem_append.mp hT).elim id id)
  show (e.files.erase r.id).find? T.info.id = _
  rw [find?_erase, if_neg hne]
  exact h.files T hT

theorem deleteInput_eq (held : List Version) (e : Engine) (r : TableMeta) :
    ∃ files, Engine.deleteInput held e r = { e with files := files } := by
  rw [Engine.deleteInput]
  split
  · exact ⟨_, rfl⟩
  · exact ⟨_, rfl⟩

theorem Holds.deleteInputs (h : Holds e M M) (hv : e.version.tables = e.readers)
    (held : List Version) (rs : List TableMeta) :
    Holds (rs.foldl (Engine.deleteInput held) e) M M ∧
      ∃ files, rs.foldl (Engine.deleteInput held) e = { e with files := files } := by
  induction rs generalizing e with
  | nil => exact ⟨h, _, rfl⟩
  | cons r rs ih =>
    obtain ⟨files, heq⟩ := deleteInput_eq held e r
    obtain ⟨hh, files', heq'⟩ := ih (h.deleteInput hv held r) (by rw [heq]; exact hv)
    refine ⟨hh, files', ?_⟩
    rw [List.foldl_cons, heq', heq]

/-! ## A whole compaction -/

/-- What a compaction that got as far as its manifest edit did. -/
structure Compacted (e : Engine) (M D : List LiveTable) (choice : Option (List ℕ)) (now : ℕ)
    (e' : Engine) (M' D' : List LiveTable) : Prop where
  holds : Holds e' M' D'
  readers : D' = D ∨ D' = M'
  saved : e'.manifest.dumps e.config.isUtf8 = true → D' = M' ∧ e'.stored = some e'.manifest
  plan : ∃ ids front inputs back out, e.chooseInputs choice = .ok (some ids) ∧
    Selects M ids front inputs back ∧ Merges (front ++ back) inputs (e.drops ids now) out ∧
    M'.Perm (front ++ (back ++ out.toList)) ∧
    M'.map (·.info) = e.config.sort.run ((front ++ (back ++ out.toList)).map (·.info))

/-- The output of a compaction has rows of its inputs. -/
theorem Compacted.rows {e e' : Engine} {M D M' D' : List LiveTable} {choice : Option (List ℕ)}
    {now : ℕ} (hc : Compacted e M D choice now e' M' D') {P : Bytes × MemEntry → Prop}
    (h : ∀ T ∈ M, ∀ p ∈ T.rows.entries, P p) : ∀ T ∈ M', ∀ p ∈ T.rows.entries, P p := by
  obtain ⟨ids, front, inputs, back, out, -, hs, hmerges, hperm, -⟩ := hc.plan
  intro T hT p hp
  rw [hperm.mem_iff, ← List.append_assoc] at hT
  rcases List.mem_append.mp hT with hT | hT
  · exact h T (hs.mem.mpr (.inl hT)) p hp
  · have hfind := find?_eq_some_iff.mpr (show (p.1, p.2) ∈ _ from hp)
    obtain ⟨U, hU, hkey⟩ := exists_of_tableHit (hmerges.of_find? (Option.mem_toList.mp hT) hfind)
    exact h U (hs.mem.mpr (.inr hU)) (p.1, p.2) (find?_eq_some_iff.mp hkey)

/-- What a compaction leaves as it was. -/
structure SameMemory (e e' : Engine) : Prop where
  config : e'.config = e.config
  wal : e'.wal = e.wal
  active : e'.active = e.active
  immutables : e'.immutables = e.immutables
  closed : e'.closed = e.closed
  version : e'.version.immutables = e.version.immutables ∨
    e'.version.immutables = e.immutables

theorem SameMemory.refl (e : Engine) : SameMemory e e := ⟨rfl, rfl, rfl, rfl, rfl, .inl rfl⟩

/-- A compaction changes nothing, or the table set as its plan says. -/
theorem Holds.runCompaction (h : Holds e M D) (hv : e.version.tables = e.readers)
    (choice : Option (List ℕ)) (now created : ℕ) :
    (e.runCompaction choice now created).1 = e ∨
      (∃ M' D', Compacted e M D choice now (e.runCompaction choice now created).1 M' D') ∧
        SameMemory e (e.runCompaction choice now created).1 ∧
        (e.runCompaction choice now created).1.version.tables =
          (e.runCompaction choice now created).1.readers := by
  rw [Engine.runCompaction, Engine.runCompactionAt]
  split
  · exact .inl rfl
  split
  · exact .inl rfl
  · exact .inl rfl
  rename_i ids hchoice
  obtain ⟨front, inputs, back, hs⟩ := h.selects hchoice
  obtain ⟨final, merged, n, hmerge, hrows⟩ := h.mergeInputs hs now
  rcases hscan : e.scanInputs ids now with x | m
  · exact .inl rfl
  obtain rfl := Except.ok.inj ((scanInputs_ok hscan).symm.trans hmerge)
  dsimp only
  split
  · exact .inl rfl
  rename_i e₁ added hwrite
  obtain ⟨out, rfl, hmerges, hadds, ⟨files, misindexed, rfl⟩, h₁⟩ :=
    h.writeOutput hrows (fun r hr => h.of_drops hs hr) hwrite
  obtain ⟨M', hperm, htables⟩ := exists_perm_map (f := LiveTable.info)
    (l := front ++ (back ++ out.toList)) (e.config.sort.perm _).symm
  have hedit := h₁.compactionEdit hs hadds hperm htables
  have hplan : ∃ ids front inputs back out, e.chooseInputs choice = .ok (some ids) ∧
      Selects M ids front inputs back ∧ Merges (front ++ back) inputs (e.drops ids now) out ∧
      M'.Perm (front ++ (back ++ out.toList)) ∧
      M'.map (·.info) = e.config.sort.run ((front ++ (back ++ out.toList)).map (·.info)) :=
    ⟨ids, front, inputs, back, out, hchoice, hs, hmerges, hperm, htables⟩
  refine .inr ?_
  rcases h₁.publishCompaction hedit with ⟨m, readers, -, hpub, h₂⟩ | ⟨m, hd, hpub, h₂⟩ <;>
    rw [Engine.publishCompaction] at hpub h₂
  · rw [hpub] at h₂ ⊢
    obtain ⟨h₃, files', heq⟩ := h₂.deleteInputs rfl [] (e.readers.filter (fun r => r.id ∈ ids))
    refine ⟨⟨M', M', h₃, .inr rfl, fun _ => ⟨rfl, ?_⟩, hplan⟩, ?_⟩ <;>
      dsimp only at heq ⊢ <;> rw [heq]
    exact ⟨⟨rfl, rfl, rfl, rfl, rfl, .inr rfl⟩, rfl⟩
  · rw [hpub] at h₂ ⊢
    exact ⟨⟨M', D, h₂, .inl rfl, fun hd' => absurd hd' hd, hplan⟩,
      ⟨rfl, rfl, rfl, rfl, rfl, .inl rfl⟩, hv⟩

end

end LsmKv
