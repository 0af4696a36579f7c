import LsmKv.WalLog

/-!
# Where the records of a log come from

No operation on a log but an append puts a record in it, whatever state the log is in.
-/

namespace LsmKv
namespace WalLog
open OrderedMap

theorem mem_records {dir : OrderedMap ℕ (DurableFile Record)} {r : Record} :
    r ∈ records dir ↔ ∃ id f, dir.find? id = some f ∧ r ∈ f.data := by
  rw [records, List.mem_flatMap]
  constructor
  · rintro ⟨p, hp, hr⟩
    exact ⟨p.1, p.2, find?_eq_some_iff.mpr hp, hr⟩
  · rintro ⟨id, f, hf, hr⟩
    exact ⟨(id, f), find?_eq_some_iff.mp hf, hr⟩

theorem mem_records_insert {dir : OrderedMap ℕ (DurableFile Record)} {id : ℕ}
    {f : DurableFile Record} {r : Record} (h : r ∈ records (dir.insert id f)) :
    r ∈ f.data ∨ r ∈ records dir := by
  obtain ⟨id', f', hf, hr⟩ := mem_records.mp h
  rw [find?_insert] at hf
  split at hf
  · obtain rfl := Option.some.inj hf
    exact .inl hr
  · exact .inr (mem_records.mpr ⟨id', f', hf, hr⟩)

theorem mem_records_of_activeFile {l : Wal Record} {r : Record} (h : r ∈ l.activeFile.data) :
    r ∈ records l.dir := by
  rw [Wal.activeFile] at h
  rcases hf : l.dir.find? l.activeId with _ | f
  · rw [hf] at h
    cases h
  · rw [hf] at h
    exact mem_records.mpr ⟨_, f, hf, h⟩

theorem mem_records_onActive {l : Wal Record} {g : DurableFile Record → DurableFile Record}
    {r : Record} (h : r ∈ records (l.onActive g).dir) :
    r ∈ (g l.activeFile).data ∨ r ∈ records l.dir := mem_records_insert h

theorem records_sync_subset (l : Wal Record) : records l.sync.dir ⊆ records l.dir := fun _ hr =>
  (mem_records_onActive hr).elim mem_records_of_activeFile id

theorem records_openFile_subset (id : ℕ) (l : Wal Record) :
    records (l.openFile id).dir ⊆ records l.dir := fun _ hr =>
  (mem_records_onActive hr).elim
    (mem_records_of_activeFile (l := { l with isOpen := true, activeId := id })) (fun h => h)

theorem records_rollSegment_subset (l : Wal Record) :
    records (rollSegment l).dir ⊆ records l.dir := fun _ hr =>
  records_sync_subset l (records_openFile_subset _ (l.onActive (·.sync)).closeFile hr)

theorem records_roll_subset (l : Wal Record) : records (roll l).1.dir ⊆ records l.dir := by
  rw [roll]
  split
  · exact List.Subset.refl _
  · exact records_rollSegment_subset l

theorem records_close_subset (l : Wal Record) : records l.close.dir ⊆ records l.dir := by
  rw [Wal.close]
  split
  · exact records_sync_subset l
  · exact List.Subset.refl _

theorem records_appendRecord_subset (r : Record) (l : Wal Record) :
    records (appendRecord r l).dir ⊆ r :: records l.dir := by
  have hwrite : records (writeRecord r l).dir ⊆ r :: records l.dir := by
    intro a ha
    rcases mem_records_onActive (l := l) (g := (·.append [r])) ha with ha | ha
    · rw [DurableFile.data_append] at ha
      rcases List.mem_append.mp ha with ha | ha
      · exact List.mem_cons_of_mem _ (mem_records_of_activeFile ha)
      · exact List.mem_singleton.mp ha ▸ List.mem_cons_self
    · exact List.mem_cons_of_mem _ ha
  show records (syncPolicy (writeRecord r l)).dir ⊆ _
  rw [syncPolicy_writeRecord]
  split
  · exact List.Subset.trans (records_sync_subset _) hwrite
  · exact hwrite

theorem records_append_subset (del : Bool) (key value : Bytes) (l : Wal Record) :
    records (append del key value l).1.dir ⊆
      ⟨del, key, value, l.lastSeqno + 1⟩ :: records l.dir := by
  rw [append, appendAs]
  rcases Wal.checkAppend l.isOpen key value with x | u
  · exact List.subset_cons_self _ _
  dsimp only
  split
  · exact List.Subset.trans (records_appendRecord_subset _ _)
      (List.cons_subset_cons _ (records_rollSegment_subset l))
  · exact records_appendRecord_subset _ l

theorem records_removeCovered_subset (watermark : ℕ) (l : Wal Record) :
    records (l.removeSegmentsCovered watermark).1.dir ⊆ records l.dir := by
  have hstep : ∀ (w : Wal Record) id, records (w.removeStep watermark id).dir ⊆ records w.dir := by
    intro w id
    rw [Wal.removeStep]
    split
    · intro r hr
      obtain ⟨id', f, hf, hr⟩ := mem_records.mp hr
      rw [find?_erase] at hf
      split at hf
      · cases hf
      · exact mem_records.mpr ⟨id', f, hf, hr⟩
    · exact List.Subset.refl _
  rw [Wal.removeSegmentsCovered]
  generalize l.dir.keys = ids
  induction ids generalizing l with
  | nil => exact List.Subset.refl _
  | cons id ids ih => exact List.Subset.trans (ih (l.removeStep watermark id)) (hstep l id)

theorem records_repair_subset (dir : OrderedMap ℕ (DurableFile Record)) :
    records (dir.map repair) ⊆ records dir := by
  intro r hr
  obtain ⟨id, f, hf, hr⟩ := mem_records.mp hr
  rw [find?_map, Option.map_eq_some_iff] at hf
  obtain ⟨g, hg, rfl⟩ := hf
  exact mem_records.mpr ⟨id, g, hg, List.mem_of_mem_take hr⟩

theorem records_open_subset (l : Wal Record) :
    records (WalLog.open l).1.dir ⊆ records l.dir ∧ (WalLog.open l).2 ⊆ records l.dir := by
  have hrepair := records_repair_subset l.dir
  refine ⟨?_, open_snd l ▸ hrepair⟩
  unfold WalLog.open
  dsimp only
  split
  · exact List.Subset.trans (records_openFile_subset _ (recovered _ l)) hrepair
  · exact List.Subset.trans (records_openFile_subset _ (recovered _ l)) hrepair

end WalLog
end LsmKv
