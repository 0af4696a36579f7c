import LsmKv.Layers
import LsmKv.Manifest

/-!
# Compaction

Choosing adjacent tables, merging their rows, and leaving out the tombstones that no longer
hide anything.
-/

namespace LsmKv
open Sst (TableMeta)

/-- The rows of a table file, as its writer was given them and its scanner returns them. -/
abbrev Rows := OrderedMap Bytes MemEntry

inductive PickReason where
  | sizeSimilar | fallback
  deriving DecidableEq, Repr

structure CompactionPick where
  ids : List ℕ
  totalBytes : ℕ
  reason : PickReason
  deriving DecidableEq, Repr

namespace Compaction

/-! ## The picker -/

/-- The runs of `k` adjacent tables, newest first. -/
def windows (k : ℕ) : List TableMeta → List (List TableMeta)
  | [] => []
  | t :: ts => if k ≤ ts.length + 1 then (t :: ts).take k :: windows k ts else []

def fewerBytes (total : ℕ) (pick : Option CompactionPick) : Bool :=
  pick.all (fun p => total < p.totalBytes)

/-- One window against the best qualifying one and the best one so far. -/
def considerWindow (withinRatio : ℕ → ℕ → Bool) (picks : Option CompactionPick ×
    Option CompactionPick) (w : List TableMeta) :
    Option CompactionPick × Option CompactionPick :=
  let sizes := w.map (·.fileSize)
  let total := sizes.sum % 2 ^ 64
  let ids := w.map (·.id)
  (if withinRatio (sizes.foldl max 0) (sizes.foldl min (2 ^ 64 - 1)) && fewerBytes total picks.1
    then some ⟨ids, total, .sizeSimilar⟩ else picks.1,
  if fewerBytes total picks.2 then some ⟨ids, total, .fallback⟩ else picks.2)

/-- `pick_compaction`. `withinRatio` is the floating-point test of a window's greatest and
least file size. -/
def pickCompaction (size_tiered_fan_in : ℕ) (withinRatio : ℕ → ℕ → Bool)
    (tables : List TableMeta) : Option CompactionPick :=
  let k := max 2 size_tiered_fan_in
  if tables.length < k then none
  else
    let picks := (windows k tables).foldl (considerWindow withinRatio) (none, none)
    picks.1.or picks.2

/-! ## Explicit inputs -/

/-- The positions, from `i` on, of the tables that are among `ids`. -/
def positions (ids : List ℕ) : List TableMeta → ℕ → List ℕ
  | [], _ => []
  | t :: ts, i => if t.id ∈ ids then i :: positions ids ts (i + 1) else positions ids ts (i + 1)

def adjacent : List ℕ → Bool
  | a :: b :: rest => b == a + 1 && adjacent (b :: rest)
  | _ => true

def invalidArgument (message : String) : Error := ⟨.invalidArgument, message⟩

/-- The checks `run_compaction` makes of an explicit id list, and the list it goes on with. -/
def explicitInputs (live : List TableMeta) (ids : List ℕ) : Except Error (List ℕ) :=
  if ids.length < 2 then .error (invalidArgument "compaction needs at least 2 input tables")
  else match ids.find? (fun id => live.all (fun t => t.id ≠ id)) with
    | some id => .error (invalidArgument ("table id " ++ toString id ++ " is not a live SSTable"))
    | none =>
      if adjacent (positions ids live 0) then
        .ok ((positions ids live 0).filterMap (fun p => live[p]?.map (·.id)))
      else .error (invalidArgument ("input tables must be adjacent in seqNo order " ++
        "(see list-sst; pick a contiguous run)"))

/-! ## Merging -/

/-- The smallest `min_seqno` among the tables that are not inputs. -/
def outsideOldestMinSeqno (live : List TableMeta) (ids : List ℕ) : ℕ :=
  (live.filter (fun t => t.id ∉ ids)).foldl (fun m t => min m t.minSeqno) (2 ^ 64 - 1)

/-- When the newest input that may hold `seqno` was written. -/
def sourceCreatedAt (inputs : List TableMeta) (now seqno : ℕ) : ℕ :=
  ((inputs.find? (fun t => t.minSeqno ≤ seqno && seqno ≤ t.maxSeqno)).map
    (·.createdAt)).getD now

/-- The tombstone rule: old enough, and every table outside entirely newer. -/
def dropsTombstone (grace now outside_oldest_min_seqno : ℕ) (inputs : List TableMeta)
    (e : MemEntry) : Bool :=
  e.tombstone && grace + sourceCreatedAt inputs now e.seqno < now &&
    e.seqno < outside_oldest_min_seqno

end Compaction

namespace Memtable

def fresh (overhead : ℕ) : Memtable := { overhead := overhead }

def applyEntry (m : Memtable) (e : Bytes × MemEntry) : Memtable :=
  m.apply e.1 e.2.value e.2.seqno e.2.tombstone

/-- The merge of tables listed newest first: the rows of the oldest go in first. -/
def merged (overhead : ℕ) (inputs : List Rows) : Memtable :=
  inputs.reverse.foldl (fun m rows => rows.entries.foldl applyEntry m) (fresh overhead)

/-- The rows of a merge that are kept. -/
def finalTable (overhead : ℕ) (drops : MemEntry → Bool) (m : Memtable) : Memtable :=
  m.map.entries.foldl (fun f e => if drops e.2 then f else f.applyEntry e) (fresh overhead)

@[simp] theorem map_applyEntry (m : Memtable) (e : Bytes × MemEntry) :
    (m.applyEntry e).map = m.map.insert e.1 e.2 := map_apply _ _ _ _ _

theorem map_foldl_applyEntry (m : Memtable) (es : List (Bytes × MemEntry)) :
    (es.foldl applyEntry m).map = es.foldl (fun r e => r.insert e.1 e.2) m.map := by
  induction es generalizing m with
  | nil => rfl
  | cons e es ih => rw [List.foldl_cons, ih, map_applyEntry, List.foldl_cons]

theorem map_merged (overhead : ℕ) (inputs : List Rows) :
    (merged overhead inputs).map = OrderedMap.overlay inputs := by
  rw [merged, List.foldl_reverse]
  induction inputs with
  | nil => rfl
  | cons rows inputs ih =>
    rw [List.foldr_cons, map_foldl_applyEntry, ih]
    rfl

theorem map_finalTable (overhead : ℕ) (drops : MemEntry → Bool) (m : Memtable) :
    (finalTable overhead drops m).map = m.map.filter (fun _ e => !drops e) := by
  have hfold : ∀ (es : List (Bytes × MemEntry)) (f : Memtable),
      (es.foldl (fun f e => if drops e.2 then f else f.applyEntry e) f).map =
        (es.filter (fun e => !drops e.2)).foldl (fun r e => r.insert e.1 e.2) f.map := by
    intro es
    induction es with
    | nil => exact fun f => rfl
    | cons e es ih =>
      intro f
      rw [List.foldl_cons, ih]
      rcases hd : drops e.2 with _ | _
      · rw [List.filter_cons_of_pos (by simp [hd])]
        simp
      · rw [List.filter_cons_of_neg (by simp [hd])]
        simp
  rw [finalTable, hfold]
  exact OrderedMap.foldl_insert_empty (m.map.filter (fun _ e => !drops e)).sorted

end Memtable

namespace Compaction

/-! ## Inputs are a window -/

/-- The ids name a run of adjacent tables, in list order. -/
def Window (live : List TableMeta) (ids : List ℕ) : Prop :=
  ∃ front inputs back, live = front ++ (inputs ++ back) ∧ ids = inputs.map (·.id) ∧ inputs ≠ []

theorem mem_windows {k : ℕ} {tables w : List TableMeta} (h : w ∈ windows k tables) :
    w.length = k ∧ ∃ front back, tables = front ++ (w ++ back) := by
  induction tables with
  | nil => cases h
  | cons t ts ih =>
    rw [windows] at h
    split at h
    · rename_i hk
      rcases List.mem_cons.mp h with rfl | h
      · exact ⟨List.length_take_of_le hk, [], (t :: ts).drop k, by simp⟩
      · obtain ⟨hlen, front, back, rfl⟩ := ih h
        exact ⟨hlen, t :: front, back, rfl⟩
    · cases h

/-- What the picker holds on to came from some window. -/
theorem considerWindow_ids (withinRatio : ℕ → ℕ → Bool) {P : List ℕ → Prop}
    {picks : Option CompactionPick × Option CompactionPick} {w : List TableMeta}
    (hw : P (w.map (·.id))) (h₁ : ∀ p ∈ picks.1, P p.ids) (h₂ : ∀ p ∈ picks.2, P p.ids) :
    (∀ p ∈ (considerWindow withinRatio picks w).1, P p.ids) ∧
      ∀ p ∈ (considerWindow withinRatio picks w).2, P p.ids := by
  constructor
  · intro p hp
    simp only [considerWindow] at hp
    split at hp
    · obtain rfl := Option.some.inj hp
      exact hw
    · exact h₁ p hp
  · intro p hp
    simp only [considerWindow] at hp
    split at hp
    · obtain rfl := Option.some.inj hp
      exact hw
    · exact h₂ p hp

/-- The pick is one of the windows. -/
theorem pickCompaction_mem {fan_in : ℕ} {withinRatio : ℕ → ℕ → Bool} {tables : List TableMeta}
    {p : CompactionPick} (h : pickCompaction fan_in withinRatio tables = some p) :
    ∃ w ∈ windows (max 2 fan_in) tables, p.ids = w.map (·.id) := by
  have hfold : ∀ (ws : List (List TableMeta)) (P : List ℕ → Prop) (picks : Option CompactionPick ×
      Option CompactionPick), (∀ w ∈ ws, P (w.map (·.id))) →
      (∀ q ∈ picks.1, P q.ids) → (∀ q ∈ picks.2, P q.ids) →
      (∀ q ∈ (ws.foldl (considerWindow withinRatio) picks).1, P q.ids) ∧
        ∀ q ∈ (ws.foldl (considerWindow withinRatio) picks).2, P q.ids := by
    intro ws P
    induction ws with
    | nil => exact fun picks _ h₁ h₂ => ⟨h₁, h₂⟩
    | cons w ws ih =>
      intro picks hws h₁ h₂
      obtain ⟨hw, hws⟩ := List.forall_mem_cons.mp hws
      obtain ⟨h₁', h₂'⟩ := considerWindow_ids withinRatio hw h₁ h₂
      exact ih _ hws h₁' h₂'
  rw [pickCompaction] at h
  dsimp only at h
  split at h
  · cases h
  · obtain ⟨h₁, h₂⟩ := hfold (windows (max 2 fan_in) tables)
      (fun ids => ∃ w ∈ windows (max 2 fan_in) tables, ids = w.map (·.id)) (none, none)
      (fun w hw => ⟨w, hw, rfl⟩) (by simp) (by simp)
    rcases Option.or_eq_some_iff.mp h with h | ⟨-, h⟩
    · exact h₁ p h
    · exact h₂ p h

theorem pickCompaction_window {fan_in : ℕ} {withinRatio : ℕ → ℕ → Bool}
    {tables : List TableMeta} {p : CompactionPick}
    (h : pickCompaction fan_in withinRatio tables = some p) : Window tables p.ids := by
  obtain ⟨w, hw, hids⟩ := pickCompaction_mem h
  obtain ⟨hlen, front, back, hsplit⟩ := mem_windows hw
  refine ⟨front, w, back, hsplit, hids, fun hnil => ?_⟩
  rw [hnil, List.length_nil] at hlen
  omega

theorem positions_adjacent {ids : List ℕ} {ts : List TableMeta} {i : ℕ}
    (h : adjacent (positions ids ts i) = true) :
    ∃ front inputs back, ts = front ++ (inputs ++ back) ∧
      positions ids ts i = List.range' (i + front.length) inputs.length ∧
      (∀ t ∈ front, t.id ∉ ids) ∧ (∀ t ∈ inputs, t.id ∈ ids) ∧ ∀ t ∈ back, t.id ∉ ids := by
  induction ts generalizing i with
  | nil => exact ⟨[], [], [], rfl, rfl, by simp, by simp, by simp⟩
  | cons t ts ih =>
    rw [positions] at h ⊢
    by_cases ht : t.id ∈ ids
    · rw [if_pos ht] at h ⊢
      have htail : adjacent (positions ids ts (i + 1)) = true := by
        rcases hp : positions ids ts (i + 1) with _ | ⟨b, rest⟩
        · rfl
        · rw [hp, adjacent, Bool.and_eq_true] at h
          exact h.2
      obtain ⟨front, inputs, back, rfl, hpos, hf, hi, hb⟩ := ih htail
      rw [hpos] at h ⊢
      rcases inputs with _ | ⟨u, us⟩
      · refine ⟨[], [t], front ++ back, by simp, rfl, by simp, by simpa using ht, ?_⟩
        exact fun x hx => (List.mem_append.mp hx).elim (hf x) (hb x)
      · have hfirst : i + 1 + front.length = i + 1 := by
          rw [List.length_cons, List.range'_succ, adjacent, Bool.and_eq_true] at h
          simpa using h.1
        obtain rfl : front = [] := List.length_eq_zero_iff.mp (by omega)
        refine ⟨[], t :: u :: us, back, rfl, ?_, by simp, ?_, hb⟩
        · rw [List.length_nil, List.length_cons, List.range'_succ]
          rfl
        · exact List.forall_mem_cons.mpr ⟨ht, hi⟩
    · rw [if_neg ht] at h ⊢
      obtain ⟨front, inputs, back, rfl, hpos, hf, hi, hb⟩ := ih h
      refine ⟨t :: front, inputs, back, rfl, ?_, List.forall_mem_cons.mpr ⟨ht, hf⟩, hi, hb⟩
      rw [hpos, List.length_cons]
      congr 1
      omega

/-- The entries of a list at consecutive positions. -/
theorem filterMap_range' (f : TableMeta → ℕ) (front inputs back : List TableMeta) :
    (List.range' front.length inputs.length).filterMap
      (fun p => (front ++ (inputs ++ back))[p]?.map f) = inputs.map f := by
  induction inputs generalizing front with
  | nil => rfl
  | cons t ts ih =>
    rw [List.length_cons, List.range'_succ, List.filterMap_cons_some (b := f t) (by simp)]
    have hnext := ih (front ++ [t])
    rw [List.length_append, List.append_assoc] at hnext
    rw [List.map_cons]
    exact congrArg _ hnext

theorem explicitInputs_window {live : List TableMeta} {ids out : List ℕ}
    (h : explicitInputs live ids = .ok out) : Window live out := by
  rw [explicitInputs] at h
  split at h
  · cases h
  rename_i hlen
  split at h
  · cases h
  rename_i hlive
  split at h
  · rename_i hadj
    obtain ⟨front, inputs, back, rfl, hpos, hf, hi, hb⟩ := positions_adjacent hadj
    obtain rfl := Except.ok.inj h
    refine ⟨front, inputs, back, rfl, ?_, fun hnil => ?_⟩
    · rw [hpos, Nat.zero_add]
      exact filterMap_range' _ front inputs back
    · -- some id is that of a live table
      obtain ⟨id, hid⟩ := List.exists_mem_of_length_pos (l := ids) (by omega)
      have hall := List.find?_eq_none.mp hlive id hid
      rw [Bool.not_eq_true, List.all_eq_false] at hall
      obtain ⟨t, ht, hne⟩ := hall
      have htid : t.id = id := by simpa using hne
      subst hnil
      rcases List.mem_append.mp ht with ht | ht
      · exact hf t ht (htid ▸ hid)
      · exact hb t ht (htid ▸ hid)
  · cases h

end Compaction
end LsmKv
