import LsmKv.Engine
import Mathlib.Data.List.Induction

/-!
# Cutting a log into memtables

A memtable is what its records build, one after another. Rotation cuts a run of records into
pieces: each fills a memtable, and no proper beginning of it does. Cutting goes on while there
is room for immutables.
-/

namespace LsmKv
open WalFormat

/-- The row a record leaves in a memtable. -/
def Record.row (r : Record) : MemEntry := ⟨r.value, r.seqno, r.del⟩

@[simp] theorem Record.row_seqno (r : Record) : r.row.seqno = r.seqno := rfl

namespace Memtable

def applyRecord (m : Memtable) (r : Record) : Memtable := m.apply r.key r.value r.seqno r.del

def ofRecords (overhead : ℕ) (rs : List Record) : Memtable := rs.foldl applyRecord (fresh overhead)

@[simp] theorem ofRecords_nil (overhead : ℕ) : ofRecords overhead [] = fresh overhead := rfl

theorem ofRecords_snoc (overhead : ℕ) (rs : List Record) (r : Record) :
    ofRecords overhead (rs ++ [r]) = (ofRecords overhead rs).applyRecord r := by
  rw [ofRecords, List.foldl_append]
  rfl

/-- The row of a key is that of its last record. -/
theorem find?_ofRecords (overhead : ℕ) (rs : List Record) (k : Bytes) :
    (ofRecords overhead rs).map.find? k =
      (rs.reverse.find? (fun r => r.key = k)).map Record.row := by
  induction rs using List.reverseRecOn with
  | nil => rfl
  | append_singleton rs r ih =>
    rw [ofRecords_snoc, applyRecord, map_apply, OrderedMap.find?_insert, ih, List.reverse_append]
    by_cases hk : r.key = k
    · simp [hk, Record.row]
    · simp [hk]

theorem exists_of_find?_ofRecords {overhead : ℕ} {rs : List Record} {k : Bytes} {e : MemEntry}
    (h : (ofRecords overhead rs).map.find? k = some e) :
    ∃ r ∈ rs, r.key = k ∧ r.row = e := by
  rw [find?_ofRecords, Option.map_eq_some_iff] at h
  obtain ⟨r, hr, rfl⟩ := h
  refine ⟨r, List.mem_reverse.mp (List.mem_of_find?_eq_some hr), ?_, rfl⟩
  simpa using List.find?_some hr

theorem find?_ofRecords_last (overhead : ℕ) (rs : List Record) (r : Record) :
    (ofRecords overhead (rs ++ [r])).map.find? r.key = some r.row := by
  rw [find?_ofRecords, List.reverse_append]
  simp

end Memtable

namespace Config

variable (c : Config)

/-- The memtable these records build. -/
abbrev memtable (rs : List Record) : Memtable := .ofRecords c.overheadBytesPerEntry rs

theorem memtable_snoc (rs : List Record) (r : Record) :
    c.memtable (rs ++ [r]) = (c.memtable rs).applyRecord r := Memtable.ofRecords_snoc _ rs r

/-- Rotation is due after these records. -/
def Full (rs : List Record) : Prop := c.memtableMaxBytes ≤ (c.memtable rs).bytes

instance (rs : List Record) : Decidable (c.Full rs) := inferInstanceAs (Decidable (_ ≤ _))

/-- Rotation is not due before the last of these records. -/
def Growing (rs : List Record) : Prop := ∀ s t, rs = s ++ t → s ≠ [] → t ≠ [] → ¬c.Full s

/-- Rotation cuts right behind these records. -/
structure Fills (rs : List Record) : Prop where
  nonempty : rs ≠ []
  growing : c.Growing rs
  full : c.Full rs

variable {c}

theorem growing_nil : c.Growing [] := by
  intro s t h hs
  exact absurd (List.append_eq_nil_iff.mp h.symm).1 hs

theorem Growing.of_snoc {rs : List Record} {r : Record} (h : c.Growing (rs ++ [r])) :
    c.Growing rs := by
  rintro s t rfl hs ht
  exact h s (t ++ [r]) (List.append_assoc _ _ _) hs (by simp)

theorem Growing.not_full {rs : List Record} {r : Record} (h : c.Growing (rs ++ [r]))
    (hrs : rs ≠ []) : ¬c.Full rs := h rs [r] rfl hrs (by simp)

theorem Growing.snoc {rs : List Record} (h : c.Growing rs) (hfull : rs ≠ [] → ¬c.Full rs)
    (r : Record) : c.Growing (rs ++ [r]) := by
  intro s t hst hs ht
  obtain ⟨t', u, rfl⟩ : ∃ t' u, t = t' ++ [u] := ⟨_, _, (List.dropLast_append_getLast ht).symm⟩
  rw [← List.append_assoc] at hst
  obtain ⟨rfl, -⟩ := List.append_inj' hst rfl
  by_cases ht' : t' = []
  · rw [ht', List.append_nil] at hfull
    exact hfull hs
  · exact h s t' rfl hs ht'

end Config

/-! ## The memtables of an engine -/

structure Memtables where
  active : Memtable
  immutables : List Memtable

/-- One mutation, and the rotation it may bring. -/
def Memtables.take (c : Config) (m : Memtables) (r : Record) : Memtables :=
  let active := m.active.applyRecord r
  if c.memtableMaxBytes ≤ active.bytes ∧ m.immutables.length < c.maxImmutableTables then
    ⟨.fresh c.overheadBytesPerEntry, active :: m.immutables⟩
  else ⟨active, m.immutables⟩

namespace Engine

def memtables (e : Engine) : Memtables := ⟨e.active, e.immutables⟩

/-- A mutation applied without rotating, or with the rotation its table is due for. -/
theorem applyMutation_cases (replaying : Bool) (e : Engine) (r : Record) :
    (¬(e.config.memtableMaxBytes ≤ (e.active.applyRecord r).bytes ∧
        e.immutables.length < e.config.maxImmutableTables) ∧
      e.applyMutation replaying r = { e with active := e.active.applyRecord r }) ∨
    ((e.config.memtableMaxBytes ≤ (e.active.applyRecord r).bytes ∧
        e.immutables.length < e.config.maxImmutableTables) ∧
      e.applyMutation replaying r =
        if replaying then Engine.freeze { e with active := e.active.applyRecord r }
        else (Engine.freeze { e with
          active := e.active.applyRecord r
          wal := (WalLog.roll e.wal).1 }).publishVersion) := by
  rw [applyMutation, maybeRotate]
  by_cases hbytes : (e.active.applyRecord r).bytes < e.config.memtableMaxBytes
  · exact .inl ⟨by omega, if_pos hbytes⟩
  by_cases hroom : e.config.maxImmutableTables ≤ e.immutables.length
  · exact .inl ⟨by omega, (if_neg hbytes).trans (if_pos hroom)⟩
  · exact .inr ⟨by omega, (if_neg hbytes).trans (if_neg hroom)⟩

theorem memtables_applyMutation (replaying : Bool) (e : Engine) (r : Record) :
    (e.applyMutation replaying r).memtables = e.memtables.take e.config r := by
  rcases applyMutation_cases replaying e r with ⟨hstay, heq⟩ | ⟨hdue, heq⟩
  · rw [heq, Memtables.take]
    exact (if_neg hstay).symm
  · rw [heq, Memtables.take]
    refine Eq.trans ?_ (if_pos hdue).symm
    cases replaying <;> rfl

/-- Replaying a record touches the memtables only. -/
theorem applyMutation_true (e : Engine) (r : Record) :
    e.applyMutation true r = { e with
      active := (e.memtables.take e.config r).active
      immutables := (e.memtables.take e.config r).immutables } := by
  have hmem := memtables_applyMutation true e r
  rw [← hmem]
  rcases applyMutation_cases true e r with ⟨-, heq⟩ | ⟨-, heq⟩ <;>
  · rw [heq]
    rfl

theorem foldl_applyMutation_true (e : Engine) (rs : List Record) :
    rs.foldl (applyMutation true) e = { e with
      active := (rs.foldl (Memtables.take e.config) e.memtables).active
      immutables := (rs.foldl (Memtables.take e.config) e.memtables).immutables } := by
  induction rs generalizing e with
  | nil => rfl
  | cons r rs ih =>
    rw [List.foldl_cons, List.foldl_cons, ih, applyMutation_true]
    rfl

end Engine

/-! ## Replaying pieces -/

section
variable {c : Config}

/-- A piece that does not rotate goes into the active memtable. -/
theorem foldl_take_growing {rs : List Record} (h : c.Growing rs) (ms : List Memtable)
    (hroom : c.Full rs → rs ≠ [] → c.maxImmutableTables ≤ ms.length) :
    rs.foldl (Memtables.take c) ⟨c.memtable [], ms⟩ = ⟨c.memtable rs, ms⟩ := by
  induction rs using List.reverseRecOn with
  | nil => rfl
  | append_singleton rs r ih =>
    have hbefore := ih h.of_snoc (fun hfull hne => absurd hfull (h.not_full hne))
    rw [List.foldl_append, hbefore, c.memtable_snoc]
    refine if_neg (fun hdue => ?_)
    have hle := hroom (by rw [Config.Full, c.memtable_snoc]; exact hdue.1)
      (by simp)
    have hlt : ms.length < c.maxImmutableTables := hdue.2
    omega

/-- A piece that fills a memtable becomes an immutable. -/
theorem foldl_take_fills {rs : List Record} (h : c.Fills rs) {ms : List Memtable}
    (hroom : ms.length < c.maxImmutableTables) :
    rs.foldl (Memtables.take c) ⟨c.memtable [], ms⟩ = ⟨c.memtable [], c.memtable rs :: ms⟩ := by
  obtain ⟨s, r, rfl⟩ : ∃ s r, rs = s ++ [r] :=
    ⟨_, _, (List.dropLast_append_getLast h.nonempty).symm⟩
  have hbefore := foldl_take_growing h.growing.of_snoc ms
    (fun hfull hne => absurd hfull (h.growing.not_full hne))
  have hfull := h.full
  rw [Config.Full, c.memtable_snoc] at hfull
  rw [List.foldl_append, hbefore, c.memtable_snoc]
  exact if_pos ⟨hfull, hroom⟩

theorem foldl_take_pieces {ps : List (List Record)} (h : ∀ p ∈ ps, c.Fills p)
    {ms : List Memtable} (hroom : ps.length + ms.length ≤ c.maxImmutableTables) :
    ps.flatten.foldl (Memtables.take c) ⟨c.memtable [], ms⟩ =
      ⟨c.memtable [], (ps.map c.memtable).reverse ++ ms⟩ := by
  induction ps generalizing ms with
  | nil => rfl
  | cons p ps ih =>
    obtain ⟨hp, hps⟩ := List.forall_mem_cons.mp h
    rw [List.length_cons] at hroom
    rw [List.flatten_cons, List.foldl_append, foldl_take_fills hp (by omega),
      ih hps (by rw [List.length_cons]; omega)]
    simp

end

end LsmKv
