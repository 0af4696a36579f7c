import Mathlib.Order.Defs.LinearOrder
import Mathlib.Data.List.Basic
import Mathlib.Data.List.Sort
import Mathlib.Tactic.Common

/-!
# Ordered maps as strictly ascending association lists

The finite map behind `std::map` and behind directories listed by number. The strict
ascent is a field, so iteration order and uniqueness of keys come with the value.
-/

namespace LsmKv

universe u v w

/-- A finite map whose entries are listed in strictly ascending key order. -/
structure OrderedMap (κ : Type u) (ν : Type v) [LinearOrder κ] where
  entries : List (κ × ν)
  sorted : entries.Pairwise (fun a b => a.1 < b.1)

namespace OrderedMap

variable {κ : Type u} {ν : Type v} {ω : Type w} [LinearOrder κ]

instance [DecidableEq ν] : DecidableEq (OrderedMap κ ν) := fun m n =>
  decidable_of_iff (m.entries = n.entries) (by cases m; cases n; simp)

def empty : OrderedMap κ ν := ⟨[], .nil⟩

instance : EmptyCollection (OrderedMap κ ν) := ⟨empty⟩
instance : Inhabited (OrderedMap κ ν) := ⟨empty⟩

def findList (k : κ) : List (κ × ν) → Option ν
  | [] => none
  | (a, v) :: rest => if a = k then some v else findList k rest

def find? (m : OrderedMap κ ν) (k : κ) : Option ν := findList k m.entries

def insertList (k : κ) (v : ν) : List (κ × ν) → List (κ × ν)
  | [] => [(k, v)]
  | (a, w) :: rest =>
    if k < a then (k, v) :: (a, w) :: rest
    else if a = k then (k, v) :: rest
    else (a, w) :: insertList k v rest

theorem mem_insertList {k : κ} {v : ν} {l : List (κ × ν)} {p : κ × ν}
    (h : p ∈ insertList k v l) : p = (k, v) ∨ p ∈ l := by
  induction l with
  | nil => simpa [insertList] using h
  | cons a l ih =>
    simp only [insertList] at h
    split_ifs at h with h₁ h₂
    · simpa using h
    · rcases List.mem_cons.mp h with h | h
      · exact .inl h
      · exact .inr (List.mem_cons_of_mem _ h)
    · rcases List.mem_cons.mp h with h | h
      · exact .inr (h ▸ List.mem_cons_self)
      · exact (ih h).imp_right (List.mem_cons_of_mem _)

theorem insertList_sorted (k : κ) (v : ν) {l : List (κ × ν)}
    (h : l.Pairwise (fun a b => a.1 < b.1)) :
    (insertList k v l).Pairwise (fun a b => a.1 < b.1) := by
  induction l with
  | nil => simp [insertList]
  | cons a l ih =>
    obtain ⟨hl, hr⟩ := List.pairwise_cons.mp h
    simp only [insertList]
    split_ifs with h₁ h₂
    · refine List.pairwise_cons.mpr ⟨fun b hb => ?_, h⟩
      rcases List.mem_cons.mp hb with rfl | hb
      · exact h₁
      · exact h₁.trans (hl b hb)
    · exact List.pairwise_cons.mpr ⟨fun b hb => h₂ ▸ hl b hb, hr⟩
    · refine List.pairwise_cons.mpr ⟨fun b hb => ?_, ih hr⟩
      rcases mem_insertList hb with rfl | hb
      · exact lt_of_le_of_ne (not_lt.mp h₁) h₂
      · exact hl b hb

def insert (m : OrderedMap κ ν) (k : κ) (v : ν) : OrderedMap κ ν :=
  ⟨insertList k v m.entries, insertList_sorted k v m.sorted⟩

def erase (m : OrderedMap κ ν) (k : κ) : OrderedMap κ ν :=
  ⟨m.entries.filter (fun p => p.1 ≠ k), m.sorted.filter _⟩

def map (f : ν → ω) (m : OrderedMap κ ν) : OrderedMap κ ω :=
  ⟨m.entries.map (fun p => (p.1, f p.2)), List.pairwise_map.mpr m.sorted⟩

/-- Every value replaced by a function of it and its key. -/
def mapKeyed (f : κ → ν → ω) (m : OrderedMap κ ν) : OrderedMap κ ω :=
  ⟨m.entries.map (fun p => (p.1, f p.1 p.2)), List.pairwise_map.mpr m.sorted⟩

def keys (m : OrderedMap κ ν) : List κ := m.entries.map Prod.fst

theorem ext_entries {m n : OrderedMap κ ν} (h : m.entries = n.entries) : m = n := by
  cases m; cases n; simpa using h

@[simp] theorem entries_empty : (∅ : OrderedMap κ ν).entries = [] := rfl

@[simp] theorem find?_empty (k : κ) : (∅ : OrderedMap κ ν).find? k = none := rfl

@[simp] theorem entries_map (f : ν → ω) (m : OrderedMap κ ν) :
    (m.map f).entries = m.entries.map (fun p => (p.1, f p.2)) := rfl

theorem findList_insertList (k k' : κ) (v : ν) (l : List (κ × ν)) :
    findList k' (insertList k v l) = if k = k' then some v else findList k' l := by
  induction l with
  | nil => simp [insertList, findList]
  | cons a l ih =>
    simp only [insertList]
    split_ifs with h₁ h₂ h₃ h₄ h₅
    all_goals simp_all [findList]

theorem find?_insert (m : OrderedMap κ ν) (k k' : κ) (v : ν) :
    (m.insert k v).find? k' = if k = k' then some v else m.find? k' :=
  findList_insertList k k' v m.entries

@[simp] theorem find?_insert_self (m : OrderedMap κ ν) (k : κ) (v : ν) :
    (m.insert k v).find? k = some v := by simp [find?_insert]

theorem find?_insert_of_ne (m : OrderedMap κ ν) {k k' : κ} (v : ν) (h : k ≠ k') :
    (m.insert k v).find? k' = m.find? k' := by simp [find?_insert, h]

theorem findList_filter_ne (k k' : κ) (l : List (κ × ν)) :
    findList k' (l.filter (fun p => p.1 ≠ k)) = if k = k' then none else findList k' l := by
  induction l with
  | nil => simp [findList]
  | cons a l ih =>
    by_cases h : a.1 = k <;> by_cases h' : k = k' <;> simp_all [findList]

theorem find?_erase (m : OrderedMap κ ν) (k k' : κ) :
    (m.erase k).find? k' = if k = k' then none else m.find? k' :=
  findList_filter_ne k k' m.entries

theorem mem_of_findList {k : κ} {v : ν} {l : List (κ × ν)} (h : findList k l = some v) :
    (k, v) ∈ l := by
  induction l with
  | nil => simp [findList] at h
  | cons a l ih =>
    simp only [findList] at h
    split at h
    · rename_i heq
      cases h
      exact heq ▸ List.mem_cons_self
    · exact List.mem_cons_of_mem _ (ih h)

theorem findList_of_mem {k : κ} {v : ν} {l : List (κ × ν)}
    (hs : l.Pairwise (fun a b => a.1 < b.1)) (h : (k, v) ∈ l) : findList k l = some v := by
  induction l with
  | nil => simp at h
  | cons a l ih =>
    obtain ⟨hl, hr⟩ := List.pairwise_cons.mp hs
    rcases List.mem_cons.mp h with rfl | h
    · simp [findList]
    · have hne : a.1 ≠ k := (hl _ h).ne
      simp [findList, hne, ih hr h]

theorem find?_eq_some_iff {m : OrderedMap κ ν} {k : κ} {v : ν} :
    m.find? k = some v ↔ (k, v) ∈ m.entries :=
  ⟨mem_of_findList, findList_of_mem m.sorted⟩

theorem findList_eq_none_iff {k : κ} {l : List (κ × ν)} :
    findList k l = none ↔ ∀ p ∈ l, p.1 ≠ k := by
  induction l with
  | nil => simp [findList]
  | cons a l ih => by_cases h : a.1 = k <;> simp [findList, h, ih]

theorem find?_eq_none_iff {m : OrderedMap κ ν} {k : κ} :
    m.find? k = none ↔ ∀ p ∈ m.entries, p.1 ≠ k := findList_eq_none_iff

theorem findList_append (k : κ) (l₁ l₂ : List (κ × ν)) :
    findList k (l₁ ++ l₂) = (findList k l₁).or (findList k l₂) := by
  induction l₁ with
  | nil => simp [findList]
  | cons a l ih => by_cases h : a.1 = k <;> simp [findList, h, ih]

/-- Two ordered maps with the same lookups list the same entries. -/
theorem ext_find? {m n : OrderedMap κ ν} (h : ∀ k, m.find? k = n.find? k) : m = n := by
  apply ext_entries
  refine List.Perm.eq_of_pairwise ?_ m.sorted n.sorted ?_
  · intro a b _ _ hab hba
    exact absurd (hab.trans hba) (lt_irrefl _)
  · refine (List.perm_ext_iff_of_nodup ?_ ?_).mpr ?_
    · exact m.sorted.imp (fun h he => absurd (he ▸ h) (lt_irrefl _))
    · exact n.sorted.imp (fun h he => absurd (he ▸ h) (lt_irrefl _))
    · rintro ⟨k, v⟩
      rw [← find?_eq_some_iff, ← find?_eq_some_iff, h]

theorem insert_insert (m : OrderedMap κ ν) (k : κ) (v v' : ν) :
    (m.insert k v).insert k v' = m.insert k v' := by
  apply ext_find?
  intro k'
  simp only [find?_insert]
  split <;> rfl

theorem insert_find? {m : OrderedMap κ ν} {k : κ} {v : ν} (h : m.find? k = some v) :
    m.insert k v = m := by
  apply ext_find?
  intro k'
  rw [find?_insert]
  split
  · rename_i hk
    rw [← hk, h]
  · rfl

/-- Inserting above every key appends. -/
theorem entries_insert_of_lt {m : OrderedMap κ ν} {k : κ} (v : ν)
    (h : ∀ p ∈ m.entries, p.1 < k) : (m.insert k v).entries = m.entries ++ [(k, v)] := by
  have aux : ∀ l : List (κ × ν), (∀ p ∈ l, p.1 < k) → insertList k v l = l ++ [(k, v)] := by
    intro l hl
    induction l with
    | nil => rfl
    | cons a l ih =>
      have ha : a.1 < k := hl a List.mem_cons_self
      simp [insertList, not_lt.mpr ha.le, ha.ne, ih (fun p hp => hl p (List.mem_cons_of_mem _ hp))]
  exact aux m.entries h

/-- Overwriting the greatest key replaces the last entry. -/
theorem entries_insert_last {m : OrderedMap κ ν} {k : κ} {l : List (κ × ν)} {v : ν} (v' : ν)
    (h : m.entries = l ++ [(k, v)]) : (m.insert k v').entries = l ++ [(k, v')] := by
  have hlt : ∀ p ∈ l, p.1 < k := fun p hp =>
    (List.pairwise_append.mp (h ▸ m.sorted)).2.2 p hp (k, v) (by simp)
  have aux : ∀ l : List (κ × ν), (∀ p ∈ l, p.1 < k) →
      insertList k v' (l ++ [(k, v)]) = l ++ [(k, v')] := by
    intro l hl
    induction l with
    | nil => simp [insertList]
    | cons a l ih =>
      have ha : a.1 < k := hl a List.mem_cons_self
      simp [insertList, not_lt.mpr ha.le, ha.ne, ih (fun p hp => hl p (List.mem_cons_of_mem _ hp))]
  show insertList k v' m.entries = _
  rw [h]
  exact aux l hlt

theorem find?_last {m : OrderedMap κ ν} {l : List (κ × ν)} {k : κ} {v : ν}
    (h : m.entries = l ++ [(k, v)]) : m.find? k = some v :=
  find?_eq_some_iff.mpr (by simp [h])

theorem lt_last {m : OrderedMap κ ν} {l : List (κ × ν)} {k : κ} {v : ν}
    (h : m.entries = l ++ [(k, v)]) : ∀ p ∈ l, p.1 < k := fun p hp =>
  (List.pairwise_append.mp (h ▸ m.sorted)).2.2 p hp (k, v) (by simp)

theorem findList_map (f : ν → ω) (k : κ) (l : List (κ × ν)) :
    findList k (l.map (fun p => (p.1, f p.2))) = (findList k l).map f := by
  induction l with
  | nil => rfl
  | cons a l ih => by_cases h : a.1 = k <;> simp [findList, h, ih]

@[simp] theorem find?_map (f : ν → ω) (m : OrderedMap κ ν) (k : κ) :
    (m.map f).find? k = (m.find? k).map f := findList_map f k m.entries

theorem map_insert (f : ν → ω) (m : OrderedMap κ ν) (k : κ) (v : ν) :
    (m.insert k v).map f = (m.map f).insert k (f v) := by
  apply ext_find?
  intro k'
  simp only [find?_map, find?_insert]
  split <;> rfl

theorem map_erase (f : ν → ω) (m : OrderedMap κ ν) (k : κ) :
    (m.erase k).map f = (m.map f).erase k := by
  apply ext_find?
  intro k'
  simp only [find?_map, find?_erase]
  split <;> rfl

@[simp] theorem keys_map (f : ν → ω) (m : OrderedMap κ ν) : (m.map f).keys = m.keys := by
  simp [keys, Function.comp_def]

@[simp] theorem keys_mapKeyed (f : κ → ν → ω) (m : OrderedMap κ ν) :
    (m.mapKeyed f).keys = m.keys := by
  show (m.entries.map _).map Prod.fst = m.entries.map Prod.fst
  rw [List.map_map]
  rfl

theorem map_map {ρ : Type*} (g : ω → ρ) (f : ν → ω) (m : OrderedMap κ ν) :
    (m.map f).map g = m.map (fun v => g (f v)) := by
  apply ext_entries
  simp

/-- Inserting entries with distinct keys one by one leaves each in place. -/
theorem find?_foldl_insert (g : ν → ω) {l : List (κ × ν)}
    (hs : l.Pairwise (fun a b => a.1 < b.1)) (m : OrderedMap κ ω) {p : κ × ν} (hp : p ∈ l) :
    (l.foldl (fun m p => m.insert p.1 (g p.2)) m).find? p.1 = some (g p.2) := by
  have hout : ∀ (l : List (κ × ν)) (m : OrderedMap κ ω) {k : κ}, (∀ q ∈ l, q.1 ≠ k) →
      (l.foldl (fun m p => m.insert p.1 (g p.2)) m).find? k = m.find? k := by
    intro l
    induction l with
    | nil => exact fun m k _ => rfl
    | cons q l ih =>
      intro m k hk
      rw [List.foldl_cons, ih _ (fun q' hq' => hk q' (List.mem_cons_of_mem _ hq')),
        find?_insert_of_ne _ _ (hk q List.mem_cons_self)]
  induction l generalizing m with
  | nil => cases hp
  | cons q l ih =>
    obtain ⟨hq, hl⟩ := List.pairwise_cons.mp hs
    rw [List.foldl_cons]
    rcases List.mem_cons.mp hp with rfl | hp
    · rw [hout l _ (fun q' hq' => (hq q' hq').ne'), find?_insert_self]
    · exact ih hl _ hp

end OrderedMap
end LsmKv
