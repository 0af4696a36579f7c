import LsmKv.Engine
import Mathlib.Data.List.Perm.Subperm

/-!
# Explicit compaction sets

When an id list is accepted: it has to name two tables at least, next to each other, and no id
that is not live. The check counts ids where it means tables.
-/

namespace LsmKv
open Sst (TableMeta)
namespace Compaction

/-- The ids name `inputs`: two live tables or more, one after another. -/
structure Names (live : List TableMeta) (ids : List ℕ) (inputs : List TableMeta) : Prop where
  two : 2 ≤ inputs.length
  run : ∃ front back, live = front ++ (inputs ++ back) ∧ ∀ t ∈ front ++ back, t.id ∉ ids
  named : ∀ id, id ∈ ids ↔ ∃ t ∈ inputs, t.id = id

variable {live inputs front back : List TableMeta} {ids : List ℕ}

/-! ## Positions -/

theorem positions_append (ids : List ℕ) (ts us : List TableMeta) (i : ℕ) :
    positions ids (ts ++ us) i = positions ids ts i ++ positions ids us (i + ts.length) := by
  induction ts generalizing i with
  | nil => rfl
  | cons t ts ih =>
    have hnext : i + (t :: ts).length = i + 1 + ts.length := by
      rw [List.length_cons]
      omega
    rw [List.cons_append, positions, positions, ih, hnext]
    split <;> rfl

theorem positions_none {ts : List TableMeta} (h : ∀ t ∈ ts, t.id ∉ ids) (i : ℕ) :
    positions ids ts i = [] := by
  induction ts generalizing i with
  | nil => rfl
  | cons t ts ih =>
    obtain ⟨ht, hts⟩ := List.forall_mem_cons.mp h
    rw [positions, if_neg ht, ih hts]

theorem positions_all {ts : List TableMeta} (h : ∀ t ∈ ts, t.id ∈ ids) (i : ℕ) :
    positions ids ts i = List.range' i ts.length := by
  induction ts generalizing i with
  | nil => rfl
  | cons t ts ih =>
    obtain ⟨ht, hts⟩ := List.forall_mem_cons.mp h
    rw [positions, if_pos ht, ih hts, List.length_cons, List.range'_succ]

theorem adjacent_range' (i n : ℕ) : adjacent (List.range' i n) = true := by
  induction n generalizing i with
  | zero => rfl
  | succ n ih =>
    rcases n with _ | n
    · rfl
    · have hnext := ih (i + 1)
      rw [List.range'_succ] at hnext
      rw [List.range'_succ, List.range'_succ, adjacent, hnext]
      simp

/-- A run of tables stands at consecutive positions. -/
theorem positions_run (hout : ∀ t ∈ front ++ back, t.id ∉ ids) (hin : ∀ t ∈ inputs, t.id ∈ ids) :
    positions ids (front ++ (inputs ++ back)) 0 = List.range' front.length inputs.length := by
  rw [positions_append, positions_append,
    positions_none (fun t ht => hout t (List.mem_append_left _ ht)),
    positions_none (fun t ht => hout t (List.mem_append_right _ ht)), positions_all hin,
    List.nil_append, List.append_nil, Nat.zero_add]

/-! ## Accepted sets -/

/-- All ids are live and the tables they name are adjacent. -/
theorem explicitInputs_of_run (hlen : 2 ≤ ids.length) (hlive : live = front ++ (inputs ++ back))
    (hout : ∀ t ∈ front ++ back, t.id ∉ ids) (hnamed : ∀ id, id ∈ ids ↔ ∃ t ∈ inputs, t.id = id) :
    explicitInputs live ids = .ok (inputs.map (·.id)) := by
  have hin : ∀ t ∈ inputs, t.id ∈ ids := fun t ht => (hnamed t.id).mpr ⟨t, ht, rfl⟩
  have hfind : ids.find? (fun id => live.all (fun t => t.id ≠ id)) = none := by
    refine List.find?_eq_none.mpr (fun id hid => ?_)
    obtain ⟨t, ht, hid⟩ := (hnamed id).mp hid
    have htlive : t ∈ live := hlive ▸ List.mem_append_right _ (List.mem_append_left _ ht)
    simpa using ⟨t, htlive, hid⟩
  have hpos : positions ids live 0 = List.range' front.length inputs.length :=
    hlive ▸ positions_run hout hin
  rw [explicitInputs, if_neg (by omega), hfind, hpos]
  dsimp only
  rw [if_pos (adjacent_range' _ _), hlive, filterMap_range']

theorem Names.length_ids (h : Names live ids inputs) (hids : (live.map (·.id)).Nodup) :
    2 ≤ ids.length := by
  obtain ⟨front, back, hlive, -⟩ := h.run
  have hnodup : (inputs.map (·.id)).Nodup := by
    refine hids.sublist (List.Sublist.map _ ?_)
    rw [hlive]
    exact (List.sublist_append_left _ _).trans (List.sublist_append_right _ _)
  have hsubset : inputs.map (·.id) ⊆ ids := by
    intro id hid
    obtain ⟨t, ht, rfl⟩ := List.mem_map.mp hid
    exact (h.named t.id).mpr ⟨t, ht, rfl⟩
  have hle := (List.subperm_of_subset hnodup hsubset).length_le
  rw [List.length_map] at hle
  exact h.two.trans hle

/-- One table under an id given twice is not two tables. -/
theorem not_names_of_one {t : TableMeta} (hids : (live.map (·.id)).Nodup)
    (hone : ∀ id ∈ ids, id = t.id) : ¬∃ inputs, Names live ids inputs := by
  rintro ⟨inputs, h⟩
  obtain ⟨front, back, hlive, -⟩ := h.run
  have hsub : inputs.Sublist live := by
    rw [hlive]
    exact (List.sublist_append_left _ _).trans (List.sublist_append_right _ _)
  have hall : ∀ id ∈ inputs.map (·.id), id = t.id := by
    intro id hid
    obtain ⟨u, hu, rfl⟩ := List.mem_map.mp hid
    exact hone u.id ((h.named u.id).mpr ⟨u, hu, rfl⟩)
  have hreplicate := List.eq_replicate_of_mem hall
  have hnodup := hids.sublist (hsub.map _)
  rw [hreplicate, List.nodup_replicate, List.length_map] at hnodup
  have := h.two
  omega

/-- A list that names no inputs is refused, unless it is one table's id over and over. -/
theorem explicitInputs_refused (h : ¬∃ inputs, Names live ids inputs)
    (hone : ¬∃ t ∈ live, 2 ≤ ids.length ∧ ∀ id ∈ ids, id = t.id) :
    ∃ m, explicitInputs live ids = .error (invalidArgument m) := by
  rw [explicitInputs]
  split
  · exact ⟨_, rfl⟩
  rename_i hlen
  split
  · exact ⟨_, rfl⟩
  rename_i hlive
  split
  · rename_i hadj
    exfalso
    obtain ⟨front, inputs, back, rfl, -, hfront, hinputs, hback⟩ := positions_adjacent hadj
    have hnamed : ∀ id, id ∈ ids ↔ ∃ t ∈ inputs, t.id = id := by
      refine fun id => ⟨fun hid => ?_, ?_⟩
      swap
      · rintro ⟨t, ht, rfl⟩
        exact hinputs t ht
      have hall := List.find?_eq_none.mp hlive id hid
      rw [Bool.not_eq_true, List.all_eq_false] at hall
      obtain ⟨t, ht, hne⟩ := hall
      have htid : t.id = id := by simpa using hne
      rcases List.mem_append.mp ht with ht | ht
      · exact absurd (htid ▸ hid) (hfront t ht)
      rcases List.mem_append.mp ht with ht | ht
      · exact ⟨t, ht, htid⟩
      · exact absurd (htid ▸ hid) (hback t ht)
    obtain ⟨id, hid⟩ := List.exists_mem_of_length_pos (l := ids) (by omega)
    rcases inputs with _ | ⟨t, _ | ⟨u, ts⟩⟩
    · obtain ⟨t, ht, -⟩ := (hnamed id).mp hid
      cases ht
    · refine hone ⟨t, by simp, by omega, fun id hid => ?_⟩
      obtain ⟨u, hu, hid⟩ := (hnamed id).mp hid
      rw [← hid, List.mem_singleton.mp hu]
    · refine h ⟨t :: u :: ts, by simp, ⟨front, back, rfl, fun x hx => ?_⟩, hnamed⟩
      exact (List.mem_append.mp hx).elim (hfront x) (hback x)
  · exact ⟨_, rfl⟩

end Compaction

open Compaction

/-- An id list that names inputs is accepted with these, newest first; any other is refused and
nothing changes. -/
structure ValidatesExactly (e : Engine) (ids : List ℕ) : Prop where
  accepts : ∀ inputs, Names e.manifest.tables ids inputs →
    e.chooseInputs (some ids) = .ok (some (inputs.map (·.id))) ∧
      e.inputMeta (inputs.map (·.id)) = inputs
  refuses : (¬∃ inputs, Names e.manifest.tables ids inputs) →
    ∃ m, e.chooseInputs (some ids) = .error (.error (invalidArgument m)) ∧
      ∀ fault now created, e.runCompactionAt fault (some ids) now created =
        (e, .error (.error (invalidArgument m)))

theorem find?_of_nodup {live : List TableMeta} (hids : (live.map (·.id)).Nodup) {t : TableMeta}
    (ht : t ∈ live) : live.find? (fun u => u.id = t.id) = some t := by
  rcases hfind : live.find? (fun u => u.id = t.id) with _ | u
  · have := List.find?_eq_none.mp hfind t ht
    simp at this
  · have hid : u.id = t.id := by simpa using List.find?_some hfind
    exact hfind.trans
      (congrArg some (List.inj_on_of_nodup_map hids (List.mem_of_find?_eq_some hfind) ht hid))

theorem inputMeta_of_nodup {e : Engine} (hids : (e.manifest.tables.map (·.id)).Nodup)
    {inputs : List TableMeta} (h : ∀ t ∈ inputs, t ∈ e.manifest.tables) :
    e.inputMeta (inputs.map (·.id)) = inputs := by
  rw [Engine.inputMeta]
  induction inputs with
  | nil => rfl
  | cons t ts ih =>
    obtain ⟨ht, hts⟩ := List.forall_mem_cons.mp h
    have hstep : (t.id :: ts.map (·.id)).filterMap
        (fun id => e.manifest.tables.find? (fun u => u.id = id)) =
          t :: (ts.map (·.id)).filterMap
            (fun id => e.manifest.tables.find? (fun u => u.id = id)) :=
      List.filterMap_cons_some (find?_of_nodup hids ht)
    rw [List.map_cons, hstep, ih hts]

/-- The check is exact on every id list but one that repeats the id of a single live table. -/
theorem validatesExactly_iff (e : Engine) (hopen : e.closed = false)
    (hids : (e.manifest.tables.map (·.id)).Nodup) (ids : List ℕ) : ValidatesExactly e ids ↔
      ¬∃ t ∈ e.manifest.tables, 2 ≤ ids.length ∧ ∀ id ∈ ids, id = t.id := by
  constructor
  · rintro h ⟨t, ht, hlen, hone⟩
    obtain ⟨m, hrefused, -⟩ := h.refuses (not_names_of_one hids hone)
    obtain ⟨front, back, hsplit⟩ := List.append_of_mem ht
    have hnodup := hids
    rw [hsplit, List.map_append, List.map_cons] at hnodup
    have hrest : ∀ u ∈ front ++ back, u.id ∉ ids := by
      intro u hu hid
      have hne := (List.nodup_middle.mp hnodup)
      rw [← List.map_append] at hne
      exact (List.nodup_cons.mp hne).1 (hone u.id hid ▸ List.mem_map_of_mem hu)
    have hnamed : ∀ id, id ∈ ids ↔ ∃ u ∈ [t], u.id = id := by
      intro id
      obtain ⟨id₀, hid₀⟩ := List.exists_mem_of_length_pos (l := ids) (by omega)
      refine ⟨fun hid => ⟨t, by simp, (hone id hid).symm⟩, fun ⟨u, hu, hid⟩ => ?_⟩
      rw [← hid, List.mem_singleton.mp hu, ← hone id₀ hid₀]
      exact hid₀
    have haccepted : explicitInputs e.manifest.tables ids = .ok ([t].map (·.id)) :=
      explicitInputs_of_run hlen hsplit hrest hnamed
    rw [Engine.chooseInputs, haccepted] at hrefused
    cases hrefused
  · refine fun hone => ⟨fun inputs h => ?_, fun h => ?_⟩
    · obtain ⟨front, back, hsplit, hrest⟩ := h.run
      refine ⟨?_, inputMeta_of_nodup hids (fun t ht => ?_)⟩
      · rw [Engine.chooseInputs,
          explicitInputs_of_run (h.length_ids hids) hsplit hrest h.named]
      · rw [hsplit]
        exact List.mem_append_right _ (List.mem_append_left _ ht)
    · obtain ⟨m, hm⟩ := explicitInputs_refused h hone
      have hchoose : e.chooseInputs (some ids) = .error (.error (invalidArgument m)) := by
        rw [Engine.chooseInputs, hm]
      refine ⟨m, hchoose, fun fault now created => ?_⟩
      rw [Engine.runCompactionAt, Engine.ensureOpen, hopen]
      simp only [Bool.false_eq_true, if_false, hchoose]

/-- A store after two puts that were flushed each. -/
def flushedTwice : Engine :=
  let e := ((Engine.loaded (Config.small 1 4 1000) {}).recover.put [97] [1]).1
  (((e.flushOne 5).1.put [98] [2]).1.flushOne 6).1

theorem not_validatesExactly_flushedTwice : ¬ValidatesExactly flushedTwice [1, 1] := by
  intro h
  have hlive : flushedTwice.manifest.tables.map (·.id) = [2, 1] := by decide +kernel
  obtain ⟨m, hrefused, -⟩ := h.refuses (not_names_of_one
    (t := ⟨1, [97], [97], 1, 1, 5, 119, 1, .ten, 1⟩) (by rw [hlive]; decide) (by simp))
  have hok : flushedTwice.chooseInputs (some [1, 1]) = .ok (some [1]) := by decide +kernel
  rw [hok] at hrefused
  cases hrefused

theorem validatesExactly_flushedTwice : ValidatesExactly flushedTwice [1, 2] := by
  have hlive : flushedTwice.manifest.tables.map (·.id) = [2, 1] := by decide +kernel
  refine (validatesExactly_iff flushedTwice (by decide +kernel) (by rw [hlive]; decide)
    [1, 2]).mpr ?_
  rintro ⟨t, -, -, hone⟩
  have h₁ := hone 1 (by simp)
  have h₂ := hone 2 (by simp)
  omega

end LsmKv
