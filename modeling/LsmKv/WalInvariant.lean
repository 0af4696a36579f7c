import LsmKv.Lists
import LsmKv.WalLog

/-!
# The invariant of an open log

Records ascend through the segments, every segment below the newest is on stable storage,
the newest lags behind by no more appends than are counted, and the recorded maximum of each
segment is the true one. Appending, rolling and removing covered segments keep this; removal
takes records off the old end only.
-/

namespace LsmKv
open WalFormat

namespace WalLog

/-- The records on stable storage. -/
def durableRecords (dir : OrderedMap ℕ (DurableFile Record)) : List Record :=
  dir.entries.flatMap (fun p => p.2.data.take p.2.synced)

structure Intact (l : Wal Record) : Prop where
  live : ∃ pre f, l.Ends pre f ∧ (∀ p ∈ pre, p.2 = .durable p.2.data) ∧
    f.data.length ≤ f.synced + l.appendsSinceSync
  lag : l.appendsSinceSync < l.fsyncEveryN
  increasing : (records l.dir).Pairwise (fun a b => a.seqno < b.seqno)
  bounded : ∀ r ∈ records l.dir, r.seqno ≤ l.lastSeqno
  known : ∀ p ∈ l.dir.entries, p.2.data ≠ [] →
    l.segmentMaxSeqno.find? p.1 = some (maxSeqno p.2.data)

theorem Intact.toLive {l : Wal Record} (h : Intact l) : Live l := by
  obtain ⟨pre, f, he, hp, -⟩ := h.live
  exact ⟨pre, f, he, hp⟩

theorem Intact.rollSegment {l : Wal Record} (h : Intact l) : Intact (rollSegment l) := by
  obtain ⟨pre, f, he, hp, hlag⟩ := h.live
  have hends := ends_rollSegment he
  have hrec := records_rollSegment h.toLive
  refine ⟨⟨_, _, hends, ?_, Nat.zero_le _⟩, ?_, ?_, ?_, ?_⟩
  · intro p hmem
    rcases List.mem_append.mp hmem with hmem | hmem
    · exact hp p hmem
    · obtain rfl := List.mem_singleton.mp hmem
      rfl
  · exact lt_of_le_of_lt (Nat.zero_le _) h.lag
  · rw [hrec]
    exact h.increasing
  · rw [hrec]
    exact h.bounded
  · intro p hmem hne
    rw [hends, List.append_assoc] at hmem
    rw [rollSegment_segmentMaxSeqno]
    rcases List.mem_append.mp hmem with hmem | hmem
    · exact h.known p (by rw [he]; exact List.mem_append_left _ hmem) hne
    · rcases List.mem_append.mp hmem with hmem | hmem
      · obtain rfl := List.mem_singleton.mp hmem
        exact h.known (l.activeId, f) (by rw [he]; simp) hne
      · obtain rfl := List.mem_singleton.mp hmem
        exact absurd rfl hne

theorem Intact.appendRecord {l : Wal Record} (h : Intact l) {r : Record}
    (hr : l.lastSeqno < r.seqno) : Intact (appendRecord r l) := by
  obtain ⟨pre, f, he, hp, hlag⟩ := h.live
  have hends := ends_appendRecord he r
  have hrec := records_appendRecord h.toLive r
  have habove : ∀ a ∈ records l.dir, a.seqno < r.seqno := fun a ha =>
    lt_of_le_of_lt (h.bounded a ha) hr
  refine ⟨⟨pre, _, hends, hp, ?_⟩, ?_, ?_, ?_, ?_⟩
  · rw [appendRecord_appendsSinceSync, appended]
    split
    · simp
    · simp only [DurableFile.data_append, DurableFile.synced_append, List.length_append,
        List.length_singleton]
      omega
  · rw [appendRecord_appendsSinceSync, appendRecord_fsyncEveryN]
    have := h.lag
    split <;> omega
  · rw [hrec, List.pairwise_append]
    refine ⟨h.increasing, List.pairwise_singleton _ _, fun a ha b hb => ?_⟩
    obtain rfl := List.mem_singleton.mp hb
    exact habove a ha
  · intro a ha
    rw [hrec] at ha
    rw [appendRecord_lastSeqno]
    rcases List.mem_append.mp ha with ha | ha
    · exact (habove a ha).le
    · exact (List.mem_singleton.mp ha ▸ le_rfl)
  · intro p hmem hne
    rw [hends] at hmem
    rw [appendRecord_segmentMaxSeqno]
    rcases List.mem_append.mp hmem with hmem | hmem
    · rw [OrderedMap.find?_insert_of_ne _ _ (he.lt p hmem).ne']
      exact h.known p (by rw [he]; exact List.mem_append_left _ hmem) hne
    · obtain rfl := List.mem_singleton.mp hmem
      have hf : ∀ a ∈ f.data, a.seqno ≤ r.seqno := fun a ha =>
        (habove a (by rw [records_of_ends he]; exact List.mem_append_right _ ha)).le
      rw [appendRecord_activeId, OrderedMap.find?_insert_self, data_appended, maxSeqno_snoc hf]

/-! ## Removing covered segments -/

theorem covered_removeStep (w : ℕ) (l : Wal Record) {id id' : ℕ} (h : id ≠ id') :
    (l.removeStep w id).covered w id' = l.covered w id' := by
  rw [Wal.removeStep]
  split
  · simp only [Wal.covered, OrderedMap.find?_erase, h, if_false]
  · rfl

theorem entries_removeStep (w : ℕ) (l : Wal Record) (id : ℕ) :
    (l.removeStep w id).dir.entries =
      l.dir.entries.filter (fun p => !(decide (p.1 = id) && l.covered w p.1)) := by
  rw [Wal.removeStep]
  split
  · rename_i hc
    refine List.filter_congr (fun p _ => ?_)
    by_cases hp : p.1 = id <;> simp [hp, hc]
  · rename_i hc
    refine (List.filter_eq_self.mpr (fun p _ => ?_)).symm
    by_cases hp : p.1 = id <;> simp [hp, hc]

/-- Removal touches the directory and the recorded maxima only. -/
theorem foldl_removeStep_eq {α : Type} (w : ℕ) (l : Wal α) (ids : List ℕ) :
    ∃ dir m, ids.foldl (Wal.removeStep w) l = { l with dir := dir, segmentMaxSeqno := m } := by
  induction ids generalizing l with
  | nil => exact ⟨_, _, rfl⟩
  | cons id ids ih =>
    obtain ⟨dir, m, h⟩ := ih (l.removeStep w id)
    refine ⟨dir, m, ?_⟩
    rw [List.foldl_cons, h, Wal.removeStep]
    split <;> rfl

/-- It drops the covered segments among those it visits. -/
theorem entries_foldl_removeStep (w : ℕ) (l : Wal Record) {ids : List ℕ} (hn : ids.Nodup) :
    (ids.foldl (Wal.removeStep w) l).dir.entries =
      l.dir.entries.filter (fun p => !(decide (p.1 ∈ ids) && l.covered w p.1)) := by
  induction ids generalizing l with
  | nil => simp
  | cons id ids ih =>
    obtain ⟨hid, hn⟩ := List.nodup_cons.mp hn
    rw [List.foldl_cons, ih _ hn, entries_removeStep, List.filter_filter]
    refine List.filter_congr (fun p _ => ?_)
    by_cases hp : p.1 = id
    · have hnot : p.1 ∉ ids := hp ▸ hid
      simp [hp, hid]
    · have hc : (l.removeStep w id).covered w p.1 = l.covered w p.1 :=
        covered_removeStep w l (Ne.symm hp)
      simp [hp, hc]

/-- The maxima of the segments that stay are kept. -/
theorem find?_foldl_removeStep (w : ℕ) (l : Wal Record) {ids : List ℕ} {k : ℕ}
    (hk : k ∈ ids → l.covered w k = false) :
    (ids.foldl (Wal.removeStep w) l).segmentMaxSeqno.find? k = l.segmentMaxSeqno.find? k := by
  induction ids generalizing l with
  | nil => rfl
  | cons id ids ih =>
    rw [List.foldl_cons]
    by_cases hid : id = k
    · have hc := hk (hid ▸ List.mem_cons_self)
      have hsame : l.removeStep w id = l := by rw [Wal.removeStep, hid, hc]; simp
      rw [hsame]
      exact ih l (fun _ => hc)
    · rw [ih _ (fun hmem => by
        rw [covered_removeStep w l hid]
        exact hk (List.mem_cons_of_mem _ hmem)), Wal.removeStep]
      split
      · simp only [OrderedMap.find?_erase, hid, if_false]
      · rfl

theorem covered_active (w : ℕ) (l : Wal Record) : l.covered w l.activeId = false := by
  simp [Wal.covered]

theorem Intact.covered_iff {l : Wal Record} (h : Intact l) (w : ℕ) {p : ℕ × DurableFile Record}
    (hp : p ∈ l.dir.entries) (hne : p.2.data ≠ []) :
    l.covered w p.1 = true ↔ p.1 ≠ l.activeId ∧ maxSeqno p.2.data ≤ w := by
  simp [Wal.covered, h.known p hp hne]

/-- A segment a removal that visits the first `n` listed ones leaves alone. -/
def stays (l : Wal Record) (w n : ℕ) (p : ℕ × DurableFile Record) : Bool :=
  !(decide (p.1 ∈ l.dir.keys.take n) && l.covered w p.1)

theorem stays_eq_false {l : Wal Record} {w n : ℕ} {p : ℕ × DurableFile Record} :
    stays l w n p = false ↔ p.1 ∈ l.dir.keys.take n ∧ l.covered w p.1 = true := by
  simp [stays]

theorem sorted_keys (l : Wal Record) : l.dir.keys.Pairwise (· < ·) :=
  List.pairwise_map.mpr l.dir.sorted

/-- Keys below a listed one are listed before it. -/
theorem mem_take_keys {l : Wal Record} {n k k' : ℕ} (hk : k ∈ l.dir.keys) (hlt : k < k')
    (hk' : k' ∈ l.dir.keys.take n) : k ∈ l.dir.keys.take n := by
  have hsorted := sorted_keys l
  rw [← List.take_append_drop n l.dir.keys] at hk hsorted
  rcases List.mem_append.mp hk with hk | hk
  · exact hk
  · exact absurd ((List.pairwise_append.mp hsorted).2.2 _ hk' _ hk) (not_lt.mpr hlt.le)

/-- No segment after one that stays is dropped, unless one of them is empty. -/
theorem Intact.stays_later {l : Wal Record} (h : Intact l) (w n : ℕ) :
    l.dir.entries.Pairwise (fun a b => stays l w n a = true → a.2.data ≠ [] →
      b.2.data ≠ [] → stays l w n b = true) := by
  obtain ⟨pre, f, he, -⟩ := h.live
  have hboth := l.dir.sorted.and (List.pairwise_flatMap.mp h.increasing).2
  refine hboth.imp_of_mem (fun {a b} ha hb hab hka hna hnb => ?_)
  obtain ⟨hlt, hord⟩ := hab
  by_contra hkb
  obtain ⟨hmem, hcov⟩ := stays_eq_false.mp (Bool.not_eq_true _ ▸ hkb)
  obtain ⟨-, hle⟩ := (h.covered_iff w hb hnb).mp hcov
  have hactive : a.1 ≠ l.activeId := by
    intro hact
    have := he.lt_next b hb
    omega
  have hmax : maxSeqno a.2.data ≤ w := by
    obtain ⟨s, hs⟩ := List.exists_mem_of_ne_nil _ hnb
    exact maxSeqno_le (fun r hr => ((hord r hr s hs).le.trans (le_maxSeqno hs)).trans hle)
  have hgone := stays_eq_false.mpr ⟨mem_take_keys (List.mem_map_of_mem ha) hlt hmem,
    (h.covered_iff w ha hna).mpr ⟨hactive, hmax⟩⟩
  rw [hka] at hgone
  cases hgone

theorem Intact.le_of_dropped {l : Wal Record} (h : Intact l) {w n : ℕ}
    {p : ℕ × DurableFile Record} (hp : p ∈ l.dir.entries) (hs : stays l w n p = false) :
    ∀ r ∈ p.2.data, r.seqno ≤ w := fun _ hr =>
  (le_maxSeqno hr).trans
    ((h.covered_iff w hp (List.ne_nil_of_mem hr)).mp (stays_eq_false.mp hs).2).2

theorem entries_removeFirst (w n : ℕ) (l : Wal Record) :
    (l.removeFirst w n).dir.entries = l.dir.entries.filter (stays l w n) :=
  entries_foldl_removeStep w l (((sorted_keys l).imp ne_of_lt).sublist (List.take_sublist _ _))

/-- Only records at or below the watermark are dropped, and from the old end. -/
theorem Intact.records_removeFirst {l : Wal Record} (h : Intact l) (w n : ℕ) :
    ∃ gone, records l.dir = gone ++ records (l.removeFirst w n).dir ∧
      ∀ r ∈ gone, r.seqno ≤ w := by
  obtain ⟨gone, hsplit, hgone⟩ := flatMap_filter_suffix
    (fun p : ℕ × DurableFile Record => p.2.data) _ (h.stays_later w n)
  refine ⟨gone, ?_, fun r hr => ?_⟩
  · rw [records, records, entries_removeFirst]
    exact hsplit
  · obtain ⟨p, hp, hs, hrp⟩ := hgone r hr
    exact h.le_of_dropped hp hs r hrp

theorem Intact.durable_removeFirst {l : Wal Record} (h : Intact l) {w : ℕ} (n : ℕ) {r : Record}
    (hr : r ∈ durableRecords l.dir) (hw : w < r.seqno) :
    r ∈ durableRecords (l.removeFirst w n).dir := by
  obtain ⟨p, hp, hrp⟩ := List.mem_flatMap.mp hr
  refine List.mem_flatMap.mpr ⟨p, ?_, hrp⟩
  rw [entries_removeFirst]
  refine List.mem_filter.mpr ⟨hp, ?_⟩
  by_contra hs
  have := h.le_of_dropped hp (Bool.not_eq_true _ ▸ hs) r (List.mem_of_mem_take hrp)
  omega

theorem Intact.removeFirst {l : Wal Record} (h : Intact l) (w n : ℕ) :
    Intact (l.removeFirst w n) := by
  obtain ⟨dir, m, heq⟩ := foldl_removeStep_eq w l (l.dir.keys.take n)
  have hact : (l.removeFirst w n).activeId = l.activeId := by rw [Wal.removeFirst, heq]
  have hlag : (l.removeFirst w n).appendsSinceSync = l.appendsSinceSync := by
    rw [Wal.removeFirst, heq]
  have hevery : (l.removeFirst w n).fsyncEveryN = l.fsyncEveryN := by
    rw [Wal.removeFirst, heq]
  have hlast : (l.removeFirst w n).lastSeqno = l.lastSeqno := by
    rw [Wal.removeFirst, heq]
  obtain ⟨gone, hrec, -⟩ := h.records_removeFirst w n
  obtain ⟨pre, f, he, hp, hle⟩ := h.live
  refine ⟨⟨pre.filter (stays l w n), f, ?_, fun p hmem => hp p (List.mem_filter.mp hmem).1, ?_⟩,
    ?_, ?_, fun r hr => ?_, fun p hmem hne => ?_⟩
  · show (l.removeFirst w n).dir.entries = _
    rw [entries_removeFirst, he, List.filter_append, hact]
    simp [stays, covered_active]
  · rwa [hlag]
  · rw [hlag, hevery]
    exact h.lag
  · have := h.increasing
    rw [hrec] at this
    exact (List.pairwise_append.mp this).2.1
  · rw [hlast]
    exact h.bounded r (by rw [hrec]; exact List.mem_append_right _ hr)
  · rw [entries_removeFirst] at hmem
    obtain ⟨hmem, hs⟩ := List.mem_filter.mp hmem
    rw [Wal.removeFirst, find?_foldl_removeStep w l (fun hin => by simpa [stays, hin] using hs)]
    exact h.known p hmem hne

theorem removeSegmentsCovered_eq {α : Type} (w : ℕ) (l : Wal α) :
    (l.removeSegmentsCovered w).1 = l.removeFirst w l.dir.keys.length := by
  rw [Wal.removeFirst, List.take_length]
  rfl

/-! ## Opening -/

/-- Every segment is on stable storage. -/
def Sealed (e : OrderedMap ℕ (DurableFile Record)) : Prop :=
  ∀ p ∈ e.entries, p.2 = .durable p.2.data

theorem durableRecords_of_sealed {e : OrderedMap ℕ (DurableFile Record)} (h : Sealed e) :
    durableRecords e = records e := by
  refine List.flatMap_congr (fun p hp => ?_)
  rw [h p hp]
  exact List.take_length

theorem known_recovered (l : Wal Record) {p : ℕ × DurableFile Record} (hp : p ∈ l.dir.entries) :
    (recovered l.dir l).segmentMaxSeqno.find? p.1 = some (maxSeqno p.2.data) :=
  OrderedMap.find?_foldl_insert (fun f : DurableFile Record => maxSeqno f.data) l.dir.sorted _ hp

/-- A log opened on sealed segments that ascend is intact and holds the same records. -/
theorem intact_open {l : Wal Record} (hs : Sealed l.dir) (hr : l.dir.map repair = l.dir)
    (hinc : (records l.dir).Pairwise (fun a b => a.seqno < b.seqno))
    (hn : 0 < l.fsyncEveryN) (h₀ : l.appendsSinceSync = 0) :
    Intact (WalLog.open l).1 ∧ (WalLog.open l).1.isOpen = true ∧
      records (WalLog.open l).1.dir = records l.dir ∧ Sealed (WalLog.open l).1.dir := by
  unfold WalLog.open
  rw [hr]
  rcases hlast : l.dir.entries.getLast? with _ | ⟨id, f⟩
  · have hnil : l.dir = ∅ := OrderedMap.ext_entries (List.getLast?_eq_none_iff.mp hlast)
    simp only [hlast]
    have hdir : (openActiveSegment 1 (recovered l.dir l)).dir.entries = [(1, .new)] := by
      show (l.dir.insert 1 ((l.dir.find? 1).getD .new)).entries = _
      rw [hnil]
      rfl
    have hrec : records (openActiveSegment 1 (recovered l.dir l)).dir = [] := by
      rw [records, hdir]
      rfl
    refine ⟨⟨⟨[], .new, hdir, by simp, Nat.zero_le _⟩, ?_, ?_, ?_, ?_⟩, rfl, ?_, ?_⟩
    · show l.appendsSinceSync < l.fsyncEveryN
      rwa [h₀]
    · rw [hrec]
      exact .nil
    · rw [hrec]
      simp
    · intro p hp hne
      rw [hdir] at hp
      obtain rfl := List.mem_singleton.mp hp
      exact absurd rfl hne
    · rw [hrec, hnil]
      rfl
    · intro p hp
      rw [hdir] at hp
      obtain rfl := List.mem_singleton.mp hp
      rfl
  · obtain ⟨pre, hsnoc⟩ := List.getLast?_eq_some_iff.mp hlast
    simp only [hlast]
    have hdir : (openActiveSegment id (recovered l.dir l)).dir = l.dir :=
      Wal.dir_openFile (OrderedMap.find?_last hsnoc)
    rw [hdir]
    refine ⟨⟨⟨pre, f, ?_, fun p hp => hs p ?_, ?_⟩, ?_, ?_, fun r hmem => ?_, fun p hp _ => ?_⟩,
      rfl, rfl, hs⟩
    · show (openActiveSegment id (recovered l.dir l)).dir.entries = _
      rw [hdir, hsnoc]
      rfl
    · rw [hsnoc]
      exact List.mem_append_left _ hp
    · have hf : f = .durable f.data := hs (id, f) (by simp [hsnoc])
      rw [hf]
      exact Nat.le_add_right _ _
    · show l.appendsSinceSync < l.fsyncEveryN
      rwa [h₀]
    · rw [hdir]
      exact hinc
    · rw [hdir] at hmem
      exact le_maxSeqno hmem
    · rw [hdir] at hp
      exact known_recovered l hp

end WalLog
end LsmKv
