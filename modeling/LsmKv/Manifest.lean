import LsmKv.TableReader
import Mathlib.Data.List.Sort

/-!
# The manifest

The list of live tables, newest first, with the next table id and the edit counter. The file
holds the three as JSON, whose strings must be UTF-8 and whose numbers must be finite to be read
back; a manifest that cannot be written has nevertheless been edited in memory.
-/

namespace LsmKv
open Sst (TableMeta)

/-- `std::sort` by descending `max_seqno`; where equal ones go is not promised. -/
structure TableSort where
  run : List TableMeta → List TableMeta
  perm : ∀ ts, (run ts).Perm ts
  descending : ∀ ts, (run ts).Pairwise (fun a b => b.maxSeqno ≤ a.maxSeqno)

/-- One such sort. -/
def TableSort.insertion : TableSort where
  run ts := ts.insertionSort (fun a b => b.maxSeqno ≤ a.maxSeqno)
  perm ts := List.perm_insertionSort _ ts
  descending ts := by
    have : Std.Total (fun a b : TableMeta => b.maxSeqno ≤ a.maxSeqno) :=
      ⟨fun a b => le_total b.maxSeqno a.maxSeqno⟩
    have : IsTrans TableMeta (fun a b => b.maxSeqno ≤ a.maxSeqno) :=
      ⟨fun _ _ _ hab hbc => hbc.trans hab⟩
    exact List.pairwise_insertionSort _ ts

structure Manifest where
  nextSstId : ℕ := 1
  epoch : ℕ := 0
  tables : List TableMeta := []
  deriving DecidableEq

namespace Manifest

/-- What `load_or_create` makes of the document it has read, if there is one. -/
def restore (sort : TableSort) : Option Manifest → Manifest
  | none => {}
  | some m => { m with
      tables := sort.run m.tables
      nextSstId := (sort.run m.tables).foldl (fun n t => max n (t.id + 1)) m.nextSstId }

/-- Bits per key that are infinite or no number stand in the document as null. -/
def readable (stored : Option Manifest) : Bool :=
  stored.all (fun m => m.tables.all (fun t => t.bloomBitsPerKey.isFinite))

/-- `load_or_create`, from the manifest the file was saved from if there is one. -/
def loadOrCreate (sort : TableSort) (stored : Option Manifest) : Except Error Manifest :=
  if readable stored then .ok (restore sort stored)
  else .error ⟨.corruptionDetected, "invalid manifest JSON"⟩

def addTable (info : TableMeta) (m : Manifest) : Manifest where
  tables := info :: m.tables
  nextSstId := max m.nextSstId (info.id + 1)
  epoch := m.epoch + 1

def applyCompaction (sort : TableSort) (removed_ids : List ℕ) (added : Option TableMeta)
    (m : Manifest) : Manifest where
  tables := sort.run (m.tables.filter (fun t => t.id ∉ removed_ids) ++ added.toList)
  nextSstId := added.elim m.nextSstId (fun t => max m.nextSstId (t.id + 1))
  epoch := m.epoch + 1

/-- Whether `save` gets past `doc.dump`, which throws on a key that is not UTF-8. -/
def dumps (isUtf8 : Bytes → Bool) (m : Manifest) : Bool :=
  m.tables.all (fun t => isUtf8 t.minKey && isUtf8 t.maxKey)

def maxSeqno (m : Manifest) : ℕ := m.tables.foldl (fun v t => max v t.maxSeqno) 0

end Manifest

/-- No two tables share a `max_seqno` and the list is newest first by it. -/
def Descending (ts : List TableMeta) : Prop :=
  ts.Pairwise (fun a b => b.maxSeqno < a.maxSeqno)

instance (ts : List TableMeta) : Decidable (Descending ts) :=
  inferInstanceAs (Decidable (ts.Pairwise _))

/-- What is loaded is restored from the file. -/
theorem restore_of_loadOrCreate {sort : TableSort} {stored : Option Manifest} {m : Manifest}
    (h : Manifest.loadOrCreate sort stored = .ok m) : Manifest.restore sort stored = m := by
  rw [Manifest.loadOrCreate] at h
  split at h
  · exact Except.ok.inj h
  · cases h

/-! ## Sorting -/

theorem TableSort.mem_run (sort : TableSort) {ts : List TableMeta} {t : TableMeta} :
    t ∈ sort.run ts ↔ t ∈ ts := (sort.perm ts).mem_iff

theorem Descending.inj {ts : List TableMeta} (h : Descending ts) {a b : TableMeta} (ha : a ∈ ts)
    (hb : b ∈ ts) (hab : a.maxSeqno = b.maxSeqno) : a = b := by
  have hnodup : (ts.map TableMeta.maxSeqno).Nodup :=
    List.pairwise_map.mpr (h.imp (fun hlt => hlt.ne'))
  exact List.inj_on_of_nodup_map hnodup ha hb hab

/-- Tables that have one descending order are put in it. -/
theorem TableSort.run_eq (sort : TableSort) {ts us : List TableMeta} (h : us.Perm ts)
    (hd : Descending us) : sort.run ts = us := by
  refine List.Perm.eq_of_pairwise ?_ (sort.descending ts) (hd.imp le_of_lt)
    ((sort.perm ts).trans h.symm)
  intro a b ha hb hba hab
  exact hd.inj (h.mem_iff.mpr (sort.mem_run.mp ha)) hb (le_antisymm hab hba)

theorem TableSort.run_of_descending (sort : TableSort) {ts : List TableMeta}
    (hd : Descending ts) : sort.run ts = ts := sort.run_eq (List.Perm.refl ts) hd

/-! ## The greatest sequence number and the next id -/

theorem foldl_max_seqno (ts : List TableMeta) (v : ℕ) :
    ts.foldl (fun v t => max v t.maxSeqno) v =
      max v (ts.foldl (fun v t => max v t.maxSeqno) 0) := by
  induction ts generalizing v with
  | nil => simp
  | cons t ts ih =>
    rw [List.foldl_cons, List.foldl_cons, ih, ih (max 0 t.maxSeqno)]
    omega

theorem Manifest.le_maxSeqno {m : Manifest} {t : TableMeta} (h : t ∈ m.tables) :
    t.maxSeqno ≤ m.maxSeqno := by
  rw [Manifest.maxSeqno]
  generalize m.tables = ts at h
  induction ts with
  | nil => cases h
  | cons a ts ih =>
    rw [List.foldl_cons, foldl_max_seqno]
    rcases List.mem_cons.mp h with rfl | h
    · omega
    · exact (ih h).trans (le_max_right _ _)

theorem Manifest.exists_maxSeqno (m : Manifest) :
    m.maxSeqno = 0 ∨ ∃ t ∈ m.tables, t.maxSeqno = m.maxSeqno := by
  rw [Manifest.maxSeqno]
  induction m.tables with
  | nil => exact .inl rfl
  | cons a ts ih =>
    rw [List.foldl_cons, foldl_max_seqno]
    rcases ih with h | ⟨t, ht, h⟩
    · rw [h]
      exact .inr ⟨a, List.mem_cons_self, by omega⟩
    · rcases le_total (max 0 a.maxSeqno) (ts.foldl (fun v t => max v t.maxSeqno) 0) with hle | hle
      · exact .inr ⟨t, List.mem_cons_of_mem _ ht, by rw [max_eq_right hle]; exact h⟩
      · exact .inr ⟨a, List.mem_cons_self, by rw [max_eq_left hle]; omega⟩

theorem Manifest.maxSeqno_le {m : Manifest} {n : ℕ} (h : ∀ t ∈ m.tables, t.maxSeqno ≤ n) :
    m.maxSeqno ≤ n := by
  rcases m.exists_maxSeqno with h₀ | ⟨t, ht, h₁⟩
  · rw [h₀]
    exact Nat.zero_le n
  · exact h₁ ▸ h t ht

theorem le_foldl_nextId (ts : List TableMeta) (n : ℕ) :
    n ≤ ts.foldl (fun n t => max n (t.id + 1)) n ∧
      ∀ t ∈ ts, t.id < ts.foldl (fun n t => max n (t.id + 1)) n := by
  induction ts generalizing n with
  | nil => exact ⟨le_rfl, by simp⟩
  | cons a ts ih =>
    obtain ⟨hn, hts⟩ := ih (max n (a.id + 1))
    refine ⟨(le_max_left _ _).trans hn, fun t ht => ?_⟩
    rcases List.mem_cons.mp ht with rfl | ht
    · exact (le_max_right _ _).trans hn
    · exact hts t ht

end LsmKv
