import LsmKv.Recency
import LsmKv.TableReader

/-!
# The block cache is an exact LRU

Byte count, map and list are changed separately by hits, inserts and evictions. They are
followed together through any calls, next to a log of the uses and of the blocks stored.
-/

namespace LsmKv
namespace Sst
namespace BlockCache
open Recency

abbrev Node := (ℕ × ℕ) × Bytes

/-- What a block counts in `used_`. -/
def Node.size (n : Node) : ℕ := n.2.length

/-- The three records of what is held agree. -/
structure Consistent (c : BlockCache) : Prop where
  map_perm : c.map.Perm (c.lru.map Prod.fst)
  nodup : (c.lru.map Prod.fst).Nodup
  used_eq : c.used = total Node.size c.lru

variable {c : BlockCache} {key : ℕ × ℕ} {block : Bytes}

theorem Consistent.mem_map (h : c.Consistent) : key ∈ c.map ↔ key ∈ c.lru.map Prod.fst :=
  h.map_perm.mem_iff

/-! ## find -/

/-- A key in the map has its place in the list. -/
theorem Consistent.find_hit (h : c.Consistent) (hkey : key ∈ c.map) :
    ∃ block, (key, block) ∈ c.lru ∧ c.find key =
      ({ c with lru := (key, block) :: c.lru.eraseP (fun n => n.1 = key) }, some block) := by
  obtain ⟨n, hn, hfst⟩ := List.mem_map.mp (h.mem_map.mp hkey)
  have hsome : (c.lru.find? (fun n => n.1 = key)).isSome :=
    List.find?_isSome.mpr ⟨n, hn, decide_eq_true hfst⟩
  obtain ⟨m, hm⟩ := Option.isSome_iff_exists.mp hsome
  have hmkey : m.1 = key := by simpa using List.find?_some hm
  obtain ⟨mkey, block⟩ := m
  obtain rfl : mkey = key := hmkey
  exact ⟨block, List.mem_of_find?_eq_some hm, by rw [find, if_pos hkey, hm]⟩

theorem find_miss (hkey : key ∉ c.map) : c.find key = (c, none) := if_neg hkey

/-- Taking a block out and putting it in front changes the order only. -/
theorem perm_cons_eraseP {l : List Node} (hnodup : (l.map Prod.fst).Nodup)
    (hmem : (key, block) ∈ l) : ((key, block) :: l.eraseP (fun n => n.1 = key)).Perm l := by
  obtain ⟨n, l₁, l₂, -, hkey, hl, herase⟩ :=
    List.exists_of_eraseP (p := fun n : Node => n.1 = key) hmem (decide_eq_true rfl)
  have hn : n = (key, block) := List.inj_on_of_nodup_map hnodup (by simp [hl]) hmem
    (of_decide_eq_true hkey)
  rw [herase, hl, hn]
  exact List.perm_middle.symm

theorem map_fst_eraseP (l : List Node) :
    (l.eraseP (fun n => n.1 = key)).map Prod.fst = (l.map Prod.fst).erase key := by
  induction l with
  | nil => rfl
  | cons n l ih =>
    by_cases hkey : n.1 = key
    · simp [hkey]
    · simp [hkey, ih]

theorem Consistent.find (h : c.Consistent) (key : ℕ × ℕ) : (c.find key).1.Consistent := by
  by_cases hkey : key ∈ c.map
  · obtain ⟨block, hmem, heq⟩ := h.find_hit hkey
    rw [heq]
    have hperm := perm_cons_eraseP h.nodup hmem
    refine ⟨h.map_perm.trans (hperm.map _).symm, (hperm.map _).nodup_iff.mpr h.nodup, ?_⟩
    exact h.used_eq.trans (total_perm hperm).symm
  · rw [find_miss hkey]
    exact h

/-! ## insert -/

/-- The block is in front and counted, and nothing is evicted yet. -/
def push (key : ℕ × ℕ) (block : Bytes) (c : BlockCache) : BlockCache := { c with
  lru := (key, block) :: c.lru
  map := key :: c.map
  used := (c.used + block.length) % 2 ^ 64 }

theorem insert_new (hkey : key ∉ c.map) :
    c.insert key block = (c.push key block).evict (c.lru.length + 1) := if_neg hkey

theorem Consistent.push (h : c.Consistent) (hkey : key ∉ c.map)
    (hfits : c.used + block.length < 2 ^ 64) : (c.push key block).Consistent := by
  refine ⟨h.map_perm.cons key, List.nodup_cons.mpr ⟨fun hmem => hkey (h.mem_map.mpr hmem),
    h.nodup⟩, ?_⟩
  change (c.used + block.length) % 2 ^ 64 = block.length + total Node.size c.lru
  rw [Nat.mod_eq_of_lt hfits, h.used_eq, Nat.add_comm]

/-- What a round of the eviction loop does with the last block. -/
def dropBack (n : Node) (c : BlockCache) : BlockCache := { c with
  lru := c.lru.dropLast
  map := c.map.erase n.1
  used := (c.used + 2 ^ 64 - n.size) % 2 ^ 64 }

/-- A round of the loop `while (used_ > capacity_ && !lru_.empty())`. -/
def Evicts (c c' : BlockCache) : Prop :=
  c.capacity < c.used ∧ ∃ n, c.lru.getLast? = some n ∧ c' = c.dropBack n

/-- The loop runs until the cache fits or is empty. -/
theorem evict_runs {fuel : ℕ} (hfuel : c.lru.length ≤ fuel) :
    Relation.ReflTransGen Evicts c (c.evict fuel) ∧
      ((c.evict fuel).capacity < (c.evict fuel).used → (c.evict fuel).lru = []) := by
  induction fuel generalizing c with
  | zero => exact ⟨.refl, fun _ => List.eq_nil_of_length_eq_zero (Nat.le_zero.mp hfuel)⟩
  | succ fuel ih =>
    rw [evict]
    split
    · rename_i hover
      split
      · rename_i hnone
        exact ⟨.refl, fun _ => List.getLast?_eq_none_iff.mp hnone⟩
      · rename_i key block hlast
        have hpos : c.lru ≠ [] := fun hnil => by simp [hnil] at hlast
        have hlen : (c.dropBack (key, block)).lru.length ≤ fuel := by
          have := List.length_pos_iff.mpr hpos
          change c.lru.dropLast.length ≤ fuel
          rw [List.length_dropLast]
          omega
        obtain ⟨hrun, hend⟩ := ih hlen
        exact ⟨.head ⟨hover, _, hlast, rfl⟩ hrun, hend⟩
    · rename_i hover
      exact ⟨.refl, fun h => absurd h hover⟩

/-- Where the loop may be after the blocks `full` were there. -/
structure Evicting (cap : ℕ) (full : List Node) (c : BlockCache) : Prop where
  consistent : c.Consistent
  capacity : c.capacity = cap
  used_lt : c.used < 2 ^ 64
  begins : c.lru <+: full
  longest : ∀ q, q <+: full → total Node.size q ≤ cap → q <+: c.lru

variable {cap : ℕ} {full : List Node} {c' : BlockCache} {n : Node}

/-- The block that goes is counted, so the subtraction does not wrap. -/
theorem Consistent.used_last (h : c.Consistent) (hlast : c.lru.getLast? = some n) :
    c.used = total Node.size c.lru.dropLast + n.size := by
  conv_lhs => rw [h.used_eq, ← List.dropLast_append_getLast? n hlast, total_append]
  rfl

theorem Consistent.dropBack (h : c.Consistent) (hlt : c.used < 2 ^ 64)
    (hlast : c.lru.getLast? = some n) : (c.dropBack n).Consistent := by
  have hused := h.used_last hlast
  have hkeys : c.lru.map Prod.fst = c.lru.dropLast.map Prod.fst ++ [n.1] := by
    conv_lhs => rw [← List.dropLast_append_getLast? n hlast, List.map_append]
    rfl
  have hperm : c.map.Perm (n.1 :: c.lru.dropLast.map Prod.fst) :=
    (hkeys ▸ h.map_perm).trans (List.perm_append_singleton _ _)
  refine ⟨?_, (List.nodup_append.mp (hkeys ▸ h.nodup)).1, ?_⟩
  · have herase := hperm.erase n.1
    rwa [List.erase_cons_head] at herase
  · change (c.used + 2 ^ 64 - n.size) % 2 ^ 64 = _
    rw [hused] at hlt ⊢
    change _ = total Node.size c.lru.dropLast
    omega

theorem Evicting.step (h : Evicting cap full c) (hstep : Evicts c c') : Evicting cap full c' := by
  obtain ⟨hover, n, hlast, rfl⟩ := hstep
  have hdrop := h.consistent.dropBack h.used_lt hlast
  have hused := h.consistent.used_last hlast
  refine ⟨hdrop, h.capacity, ?_, (List.dropLast_prefix _).trans h.begins, fun q hq hfits => ?_⟩
  · rw [hdrop.used_eq]
    change total Node.size c.lru.dropLast < 2 ^ 64
    have := h.used_lt
    omega
  · refine fitting_dropLast h.longest ?_ hq hfits
    rw [← h.consistent.used_eq, ← h.capacity]
    exact hover

theorem Evicting.run (h : Evicting cap full c) (hrun : Relation.ReflTransGen Evicts c c') :
    Evicting cap full c' := by
  induction hrun with
  | refl => exact h
  | tail _ hstep ih => exact ih.step hstep

theorem Consistent.evicting (h : c.Consistent) (hkey : key ∉ c.map)
    (hfits : c.used + block.length < 2 ^ 64) :
    Evicting c.capacity ((key, block) :: c.lru) (c.push key block) :=
  ⟨h.push hkey hfits, rfl, Nat.mod_lt _ (by decide), List.prefix_rfl, fun _ hq _ => hq⟩

/-- What an insert of a new key leaves. -/
theorem Consistent.insert (h : c.Consistent) (hkey : key ∉ c.map)
    (hfits : c.used + block.length < 2 ^ 64) :
    Evicting c.capacity ((key, block) :: c.lru) (c.insert key block) ∧
      (c.insert key block).used ≤ c.capacity := by
  rw [insert_new hkey]
  have hlen : (c.push key block).lru.length ≤ c.lru.length + 1 := List.length_cons.le
  obtain ⟨hrun, hend⟩ := evict_runs hlen
  have hevicting := (h.evicting hkey hfits).run hrun
  refine ⟨hevicting, ?_⟩
  by_contra hover
  rw [← hevicting.capacity] at hover
  have hnil := hend (Nat.lt_of_not_le hover)
  rw [hevicting.consistent.used_eq, hnil] at hover
  exact hover (Nat.zero_le _)

/-! ## Runs -/

inductive Call where
  | find (key : ℕ × ℕ)
  | insert (key : ℕ × ℕ) (block : Bytes)

/-- The bytes a call brings. -/
def Call.size : Call → ℕ
  | .find _ => 0
  | .insert _ block => block.length

/-- A cache with the keys used and the blocks stored so far, the latest first. -/
structure Logged where
  cache : BlockCache
  uses : List (ℕ × ℕ) := []
  stored : List Node := []

/-- A find that hits and an insert that stores are uses. -/
def Logged.call (s : Logged) : Call → Logged
  | .find key => { s with
      cache := (s.cache.find key).1
      uses := if s.cache.map.contains key then key :: s.uses else s.uses }
  | .insert key block => {
      cache := s.cache.insert key block
      uses := if s.cache.map.contains key then s.uses else key :: s.uses
      stored := if s.cache.map.contains key then s.stored else (key, block) :: s.stored }

def run (capacity : ℕ) (calls : List Call) : Logged :=
  calls.foldl Logged.call { cache := { capacity := capacity } }

/-- What holds between two calls. -/
structure Logged.Exact (cap : ℕ) (s : Logged) : Prop where
  consistent : s.cache.Consistent
  capacity : s.cache.capacity = cap
  used_le : s.cache.used ≤ cap
  ordered : Ordered s.uses (s.cache.lru.map Prod.fst)
  latest : ∀ n ∈ s.cache.lru, s.stored.lookup n.1 = some n.2

variable {s : Logged}

theorem Logged.Exact.find (h : s.Exact cap) (key : ℕ × ℕ) :
    (s.call (.find key)).Exact cap := by
  have hfind := h.consistent.find key
  by_cases hkey : key ∈ s.cache.map
  · obtain ⟨block, hmem, heq⟩ := h.consistent.find_hit hkey
    have hcall : s.call (.find key) = { s with
        cache := { s.cache with
          lru := (key, block) :: s.cache.lru.eraseP (fun n => n.1 = key) }
        uses := key :: s.uses } := by
      rw [Logged.call, heq, if_pos (List.contains_iff_mem.mpr hkey)]
    rw [heq] at hfind
    rw [hcall]
    refine ⟨hfind, h.capacity, h.used_le, ?_, fun n hn => h.latest n ?_⟩
    · change Ordered _ (key :: (s.cache.lru.eraseP (fun n => n.1 = key)).map Prod.fst)
      rw [map_fst_eraseP]
      exact h.ordered.use key
    · exact (perm_cons_eraseP h.consistent.nodup hmem).subset hn
  · rw [Logged.call, find_miss hkey, if_neg (mt List.contains_iff_mem.mp hkey)]
    exact h

theorem Logged.Exact.insert (h : s.Exact cap) {key : ℕ × ℕ} {block : Bytes}
    (hfits : s.cache.used + block.length < 2 ^ 64) :
    (s.call (.insert key block)).Exact cap := by
  by_cases hkey : key ∈ s.cache.map
  · have hcontains := List.contains_iff_mem.mpr hkey
    rw [Logged.call, BlockCache.insert, if_pos hkey, if_pos hcontains, if_pos hcontains]
    exact h
  · have hcap := h.capacity
    obtain ⟨hevicting, hused⟩ := h.consistent.insert hkey hfits
    have hcontains := mt List.contains_iff_mem.mp hkey
    rw [Logged.call, if_neg hcontains, if_neg hcontains]
    have hnew : key ∉ s.cache.lru.map Prod.fst := fun hmem => hkey (h.consistent.mem_map.mpr hmem)
    have hordered : Ordered (key :: s.uses) (((key, block) :: s.cache.lru).map Prod.fst) := by
      have huse := h.ordered.use key
      rwa [List.erase_of_not_mem hnew] at huse
    refine ⟨hevicting.consistent, hevicting.capacity.trans hcap, hcap ▸ hused,
      hordered.sublist (hevicting.begins.sublist.map _), fun n hn => ?_⟩
    rcases List.mem_cons.mp (hevicting.begins.subset hn) with rfl | hn
    · exact List.lookup_cons_self
    · have hne : n.1 ≠ key := fun heq => hnew (heq ▸ List.mem_map_of_mem hn)
      rw [List.lookup_cons, beq_false_of_ne hne]
      exact h.latest n hn

theorem Logged.Exact.call (h : s.Exact cap) {call : Call}
    (hfits : s.cache.used + call.size < 2 ^ 64) : (s.call call).Exact cap := by
  cases call with
  | find key => exact h.find key
  | insert key block => exact h.insert hfits

/-- The bytes held and those that a call brings fit the range of `used_`. -/
def InMemory (capacity : ℕ) (calls : List Call) : Prop :=
  ∀ before call, before ++ [call] <+: calls →
    total Node.size (run capacity before).cache.lru + call.size < 2 ^ 64

theorem run_exact {calls : List Call} (hfits : InMemory cap calls) :
    (run cap calls).Exact cap := by
  induction calls using List.reverseRecOn with
  | nil => exact ⟨⟨.nil, .nil, rfl⟩, rfl, Nat.zero_le _, .nil _, by simp [run]⟩
  | append_singleton calls call ih =>
    have h := ih (fun before c hc => hfits before c (hc.trans (List.prefix_append _ _)))
    have hcall := hfits calls call List.prefix_rfl
    rw [← h.consistent.used_eq] at hcall
    rw [run, List.foldl_append]
    exact h.call hcall

/-- What is held fits the capacity, so a bound on that and each block is enough. -/
theorem inMemory_of_capacity {calls : List Call}
    (hfits : ∀ call ∈ calls, cap + call.size < 2 ^ 64) : InMemory cap calls := by
  induction calls using List.reverseRecOn with
  | nil => exact fun before call h => absurd (List.prefix_nil.mp h) (by simp)
  | append_singleton calls last ih =>
    have hmem := ih (fun c hc => hfits c (List.mem_append_left _ hc))
    intro before call h
    rcases List.prefix_concat_iff.mp h with heq | h
    · obtain ⟨rfl, rfl⟩ := List.append_singleton_inj.mp heq
      have hexact := run_exact hmem
      have hle := hexact.used_le
      rw [hexact.consistent.used_eq] at hle
      exact (Nat.add_le_add_right hle _).trans_lt
        (hfits call (List.mem_append_right _ List.mem_cons_self))
    · exact hmem before call h

/-- Over any calls the cache is an exact LRU: map and list hold the same keys, once each and in
order of last use; the bytes counted are those held and fit the capacity; a find gives the block
last stored; and an insert of a new key, whose loop never subtracts more than is counted, leaves
the longest beginning that fits. All blocks at once are in memory, so their sizes add up in the
range of `used_`. -/
theorem cache_exact_lru (capacity : ℕ) (calls : List Call) (hfits : InMemory capacity calls) :
    let s := run capacity calls
    (s.cache.map.Perm (s.cache.lru.map Prod.fst) ∧ (s.cache.lru.map Prod.fst).Nodup) ∧
    (s.cache.used = total Node.size s.cache.lru ∧ s.cache.used ≤ capacity) ∧
    Ordered s.uses (s.cache.lru.map Prod.fst) ∧
    (∀ key, (s.cache.find key).2 = if key ∈ s.cache.map then s.stored.lookup key else none) ∧
    ∀ key block, key ∉ s.cache.map → total Node.size s.cache.lru + block.length < 2 ^ 64 →
      LongestFitting Node.size capacity ((key, block) :: s.cache.lru)
        (s.cache.insert key block).lru ∧
      ∀ c, Relation.ReflTransGen Evicts (s.cache.push key block) c →
        ∀ n, c.lru.getLast? = some n → Node.size n ≤ c.used := by
  intro s
  have h : s.Exact capacity := run_exact hfits
  refine ⟨⟨h.consistent.map_perm, h.consistent.nodup⟩, ⟨h.consistent.used_eq, h.used_le⟩,
    h.ordered, fun key => ?_, fun key block hkey hblock => ⟨?_, fun c hrun n hlast => ?_⟩⟩
  · split
    · rename_i hkey
      obtain ⟨block, hmem, heq⟩ := h.consistent.find_hit hkey
      rw [heq]
      exact (h.latest _ hmem).symm
    · rename_i hkey
      rw [find_miss hkey]
  · rw [← h.consistent.used_eq] at hblock
    rw [← h.capacity]
    obtain ⟨hevicting, hused⟩ := h.consistent.insert hkey hblock
    rw [hevicting.consistent.used_eq] at hused
    exact ⟨hevicting.begins, hused, hevicting.longest⟩
  · rw [← h.consistent.used_eq] at hblock
    have hevicting := (h.consistent.evicting hkey hblock).run hrun
    rw [hevicting.consistent.used_last hlast]
    exact Nat.le_add_left _ _

def fourBlocks : List Call :=
  [.insert (1, 0) [1, 2], .insert (1, 8) [3], .find (1, 0), .insert (2, 0) [], .insert (2, 5) [9]]

theorem cache_exact_lru_fourBlocks :
    (run 3 fourBlocks).cache.lru.map Prod.fst = [(2, 5), (2, 0), (1, 0)] ∧
    LongestFitting Node.size 3 (((3, 0), [7, 7]) :: (run 3 fourBlocks).cache.lru)
      ((run 3 fourBlocks).cache.insert (3, 0) [7, 7]).lru :=
  have hfits := inMemory_of_capacity (by decide)
  ⟨by decide, ((cache_exact_lru 3 fourBlocks hfits).2.2.2.2 (3, 0) [7, 7] (by decide)
    (by decide)).1⟩

end BlockCache
end Sst
end LsmKv
