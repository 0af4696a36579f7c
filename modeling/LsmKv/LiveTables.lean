import LsmKv.Engine
import LsmKv.SstRoundTrip

/-!
# Live tables

A live table is its metadata together with the rows of its file, and carries what the one says
of the other. An engine holds two lists of them, the manifest's and the readers'; they differ
only after a manifest could not be written.
-/

namespace LsmKv
open Sst (TableMeta)
open OrderedMap

@[ext]
structure LiveTable where
  info : TableMeta
  rows : Rows
  attained : ∃ p ∈ rows.entries, p.2.seqno = info.maxSeqno
  le_max : ∀ p ∈ rows.entries, p.2.seqno ≤ info.maxSeqno
  min_le : ∀ p ∈ rows.entries, info.minSeqno ≤ p.2.seqno
  le_min : ∀ n < 2 ^ 64, (∀ p ∈ rows.entries, n ≤ p.2.seqno) → n ≤ info.minSeqno
  keyed : ∃ p ∈ rows.entries, ∃ q ∈ rows.entries, p.1 = info.minKey ∧ q.1 = info.maxKey

namespace LiveTable

theorem exists_top (T : LiveTable) :
    ∃ k e, T.rows.find? k = some e ∧ e.seqno = T.info.maxSeqno := by
  obtain ⟨⟨k, e⟩, hp, he⟩ := T.attained
  exact ⟨k, e, find?_eq_some_iff.mpr hp, he⟩

theorem seqno_le {T : LiveTable} {k : Bytes} {e : MemEntry} (h : T.rows.find? k = some e) :
    e.seqno ≤ T.info.maxSeqno := T.le_max _ (find?_eq_some_iff.mp h)

theorem le_seqno {T : LiveTable} {k : Bytes} {e : MemEntry} (h : T.rows.find? k = some e) :
    T.info.minSeqno ≤ e.seqno := T.min_le _ (find?_eq_some_iff.mp h)

theorem min_le_max (T : LiveTable) : T.info.minSeqno ≤ T.info.maxSeqno := by
  obtain ⟨k, e, hk, he⟩ := T.exists_top
  exact he ▸ le_seqno hk

end LiveTable

/-- What a newest-first lookup finds in a list of tables. -/
def tableHit (k : Bytes) (ts : List LiveTable) : Option MemEntry := firstHit k (ts.map (·.rows))

@[simp] theorem tableHit_nil (k : Bytes) : tableHit k [] = none := rfl

@[simp] theorem tableHit_cons (k : Bytes) (T : LiveTable) (ts : List LiveTable) :
    tableHit k (T :: ts) = (T.rows.find? k).or (tableHit k ts) := rfl

theorem tableHit_append (k : Bytes) (ts us : List LiveTable) :
    tableHit k (ts ++ us) = (tableHit k ts).or (tableHit k us) := by
  rw [tableHit, List.map_append, firstHit_append]
  rfl

theorem exists_of_tableHit {k : Bytes} {e : MemEntry} {ts : List LiveTable}
    (h : tableHit k ts = some e) : ∃ T ∈ ts, T.rows.find? k = some e := by
  obtain ⟨upper, rows, lower, hsplit, hrows, -⟩ := firstHit_eq_some h
  have hmem : rows ∈ ts.map (·.rows) := by rw [hsplit]; simp
  obtain ⟨T, hT, rfl⟩ := List.mem_map.mp hmem
  exact ⟨T, hT, hrows⟩

theorem tableHit_eq_none {k : Bytes} {ts : List LiveTable} :
    tableHit k ts = none ↔ ∀ T ∈ ts, T.rows.find? k = none := by
  rw [tableHit, firstHit_eq_none, List.forall_mem_map]

/-- Newest first, by metadata. -/
abbrev Newest (ts : List LiveTable) : Prop := Descending (ts.map (·.info))

theorem newest_iff {ts : List LiveTable} :
    Newest ts ↔ ts.Pairwise (fun T U => U.info.maxSeqno < T.info.maxSeqno) := List.pairwise_map

/-! ## Merging -/

/-- What merging `inputs` may leave when the tables `outside` stay: no rows that are `gone`,
which are tombstones older than everything outside. -/
structure Merges (outside inputs : List LiveTable) (gone : MemEntry → Bool)
    (out : Option LiveTable) : Prop where
  rows : ∀ k, tableHit k out.toList = (tableHit k inputs).filter (fun e => !gone e)
  tombstone : ∀ e, gone e = true → e.tombstone = true
  newer : ∀ e, gone e = true → ∀ T ∈ outside, e.seqno < T.info.minSeqno

section
variable {front inputs back : List LiveTable} {gone : MemEntry → Bool} {out : Option LiveTable}

theorem Merges.find? {outside : List LiveTable} (h : Merges outside inputs gone out)
    {T : LiveTable} (hT : T ∈ out) (k : Bytes) :
    T.rows.find? k = (tableHit k inputs).filter (fun e => !gone e) := by
  obtain rfl := Option.mem_def.mp hT
  have := h.rows k
  rw [Option.toList_some, tableHit_cons, tableHit_nil, Option.or_none] at this
  exact this

/-- A row of the output is the newest input's. -/
theorem Merges.of_find? {outside : List LiveTable} (h : Merges outside inputs gone out)
    {T : LiveTable} (hT : T ∈ out) {k : Bytes} {e : MemEntry} (he : T.rows.find? k = some e) :
    tableHit k inputs = some e := by
  rw [h.find? hT, Option.filter_eq_some_iff] at he
  exact he.1

theorem Merges.exists_out {outside : List LiveTable} (h : Merges outside inputs gone out)
    {k : Bytes} {e : MemEntry} (he : tableHit k inputs = some e) (hg : gone e = false) :
    ∃ T ∈ out, T.rows.find? k = some e := by
  have hrow := h.rows k
  rw [he, Option.filter_some, hg] at hrow
  rcases out with _ | T
  · cases hrow
  · refine ⟨T, rfl, ?_⟩
    rw [Option.toList_some, tableHit_cons, tableHit_nil, Option.or_none] at hrow
    exact hrow

/-- The output reaches no higher than the newest input. -/
theorem Merges.max_le {outside rest : List LiveTable} {T₁ : LiveTable}
    (h : Merges outside (T₁ :: rest) gone out) (hn : Newest (T₁ :: rest)) {T : LiveTable}
    (hT : T ∈ out) : T.info.maxSeqno ≤ T₁.info.maxSeqno := by
  obtain ⟨k, e, hk, he⟩ := T.exists_top
  obtain ⟨U, hU, hkU⟩ := exists_of_tableHit (h.of_find? hT hk)
  have hle := LiveTable.seqno_le hkU
  rcases List.mem_cons.mp hU with rfl | hU
  · omega
  · have := (List.pairwise_cons.mp (newest_iff.mp hn)).1 U hU
    omega

/-- With a table behind the inputs, their newest row stays. -/
theorem Merges.eq_max {rest : List LiveTable} {T₁ : LiveTable}
    (h : Merges (front ++ back) (T₁ :: rest) gone out)
    (hn : Newest (front ++ ((T₁ :: rest) ++ back))) {U : LiveTable} (hU : U ∈ back) :
    ∃ T ∈ out, T.info.maxSeqno = T₁.info.maxSeqno := by
  have hpair := newest_iff.mp hn
  have hinner := (List.pairwise_append.mp hpair).2.1
  have hlt := (List.pairwise_append.mp hinner).2.2 T₁ List.mem_cons_self U hU
  obtain ⟨k, e, hk, he⟩ := T₁.exists_top
  have hhit : tableHit k (T₁ :: rest) = some e := by rw [tableHit_cons, hk, Option.some_or]
  have hkept : gone e = false := by
    by_contra hg
    have hnew := h.newer e (by simpa using hg) U (List.mem_append_right _ hU)
    have := U.min_le_max
    omega
  obtain ⟨T, hT, hkT⟩ := h.exists_out hhit hkept
  have hle := LiveTable.seqno_le hkT
  have hge := h.max_le (newest_iff.mpr (List.pairwise_append.mp hinner).1) hT
  exact ⟨T, hT, by omega⟩

/-- The output takes the place of the inputs. -/
theorem Merges.placed (h : Merges (front ++ back) inputs gone out) (hne : inputs ≠ [])
    (hn : Newest (front ++ (inputs ++ back))) : Newest (front ++ (out.toList ++ back)) := by
  obtain ⟨T₁, rest, rfl⟩ := List.exists_cons_of_ne_nil hne
  have hpair := newest_iff.mp hn
  obtain ⟨hfront, hinner, hfi⟩ := List.pairwise_append.mp hpair
  obtain ⟨hinputs, hback, hib⟩ := List.pairwise_append.mp hinner
  rw [newest_iff]
  refine List.pairwise_append.mpr ⟨hfront, List.pairwise_append.mpr ⟨?_, hback, ?_⟩, ?_⟩
  · rcases out with _ | T
    · exact .nil
    · exact List.pairwise_singleton _ _
  · intro T hT U hU
    obtain ⟨T', hT', hmax⟩ := h.eq_max hn hU
    obtain rfl : T = T' := Option.mem_unique (Option.mem_toList.mp hT) hT'
    have := hib T₁ List.mem_cons_self U hU
    omega
  · intro F hF T hT
    rcases List.mem_append.mp hT with hT | hT
    · have hle := h.max_le (newest_iff.mpr hinputs) (Option.mem_toList.mp hT)
      have := hfi F hF T₁ (List.mem_append_left _ List.mem_cons_self)
      omega
    · exact hfi F hF T (List.mem_append_right _ hT)

end

end LsmKv
