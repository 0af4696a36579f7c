import LsmKv.SeqnoRanges

/-!
# Flushing what was accepted

Any bytes make a key, but the least and the greatest key of a table go into a JSON string. A
flush of a memtable whose first or last key is no UTF-8 fails, and so does every flush after it.
-/

namespace LsmKv
open Sst (TableMeta)
open OrderedMap

/-! ## UTF-8 -/

/-- The bytes that may come next, each within its bounds; between two characters none is
awaited. -/
abbrev Awaited := List (UInt8 × UInt8)

/-- The decoder of `dump`, which rejects overlong forms, surrogates and what lies past the last
code point. -/
def utf8Step : Awaited → UInt8 → Option Awaited
  | (lo, hi) :: rest, b => if lo ≤ b ∧ b ≤ hi then some rest else none
  | [], b =>
    if b < 0x80 then some []
    else if 0xC2 ≤ b ∧ b ≤ 0xDF then some [(0x80, 0xBF)]
    else if b = 0xE0 then some [(0xA0, 0xBF), (0x80, 0xBF)]
    else if b = 0xED then some [(0x80, 0x9F), (0x80, 0xBF)]
    else if 0xE1 ≤ b ∧ b ≤ 0xEF then some [(0x80, 0xBF), (0x80, 0xBF)]
    else if b = 0xF0 then some [(0x90, 0xBF), (0x80, 0xBF), (0x80, 0xBF)]
    else if 0xF1 ≤ b ∧ b ≤ 0xF3 then some [(0x80, 0xBF), (0x80, 0xBF), (0x80, 0xBF)]
    else if b = 0xF4 then some [(0x80, 0x8F), (0x80, 0xBF), (0x80, 0xBF)]
    else none

def validUtf8 (bs : Bytes) : Bool := bs.foldlM utf8Step [] == some []

/-! ## What a flush needs -/

/-- The manifest in memory can be dumped, and so can the first and the last key of the memtable
that is to be flushed. -/
def Engine.Dumpable (e : Engine) : Prop :=
  e.manifest.dumps e.config.isUtf8 = true ∧ ∀ m ∈ e.immutables.getLast?,
    (∀ p ∈ m.map.entries.head?, e.config.isUtf8 p.1 = true) ∧
      ∀ p ∈ m.map.entries.getLast?, e.config.isUtf8 p.1 = true

instance (e : Engine) : Decidable e.Dumpable :=
  inferInstanceAs (Decidable (_ ∧ ∀ m ∈ e.immutables.getLast?,
    (∀ p ∈ m.map.entries.head?, e.config.isUtf8 p.1 = true) ∧
      ∀ p ∈ m.map.entries.getLast?, e.config.isUtf8 p.1 = true))

/-- A flush throws nothing, the manifest lists one more table, and the oldest immutable leaves
the queue. -/
structure Engine.FlushPublishes (e : Engine) (now : ℕ) : Prop where
  result : (e.flushOne now).2 = .ok true
  listed : (e.flushOne now).1.manifest.tables.length = e.manifest.tables.length + 1
  queue : (e.flushOne now).1.immutables = e.immutables.dropLast

/-- Settings `write_sstable` can work with, and no empty memtable in the queue. -/
structure Flushable (e : Engine) : Prop where
  interval : 1 ≤ e.config.restartInterval
  immutables : ∀ m ∈ e.immutables, m.map.entries ≠ []
  tables : ∃ M D, Holds e M D ∧ e.version.tables = e.readers

section
variable {e : Engine}

theorem entries_applyRecord_ne_nil (m : Memtable) (r : Record) :
    (m.applyRecord r).map.entries ≠ [] := by
  intro hnil
  have hfind : (m.applyRecord r).map.find? r.key = some r.row := by
    rw [Memtable.applyRecord, Memtable.map_apply]
    exact find?_insert_self _ _ _
  have hmem := find?_eq_some_iff.mp hfind
  rw [hnil] at hmem
  cases hmem

theorem Flushable.write (h : Flushable e) (del : Bool) (key value : Bytes) :
    Flushable (e.write del key value).1 := by
  obtain ⟨M, D, hM, hv⟩ := h.tables
  have hsame := sameTables_write del key value e
  refine ⟨hsame.config ▸ h.interval, ?_, M, D, hsame.holds hM, (hsame.version hv).trans
    hsame.readers.symm⟩
  rw [Engine.write]
  split
  · exact h.immutables
  split
  · exact h.immutables
  split
  · exact h.immutables
  split
  · exact h.immutables
  · rename_i l seqno _
    rcases Engine.applyMutation_cases false { e with wal := l } ⟨del, key, value, seqno⟩ with
      ⟨-, heq⟩ | ⟨-, heq⟩ <;> rw [heq]
    · exact h.immutables
    · exact List.forall_mem_cons.mpr ⟨entries_applyRecord_ne_nil _ _, h.immutables⟩

theorem Flushable.perform (h : Flushable e) (c : Call) : Flushable (e.perform c) := by
  cases c with
  | put key value => exact h.write false key value
  | remove key => exact h.write true key []
  | flushOne now =>
    obtain ⟨M, D, hM, hv⟩ := h.tables
    show Flushable (e.flushOne now).1
    rcases hM.flushOne now with ⟨heq, -⟩ | ⟨target, T, hf, -⟩ | ⟨target, T, hf, -⟩
    · rwa [heq]
    · have hholds := hf.holds
      obtain ⟨files, misindexed, heq⟩ := hf.eq
      rw [heq] at hholds ⊢
      exact ⟨h.interval, fun m hm => h.immutables m (List.dropLast_subset _ hm), _, _, hholds,
        rfl⟩
    · have hholds := hf.holds
      obtain ⟨files, misindexed, heq⟩ := hf.eq
      rw [heq] at hholds ⊢
      exact ⟨h.interval, h.immutables, _, _, hholds, hv⟩
  | runCompaction inputs now created =>
    obtain ⟨M, D, hM, hv⟩ := h.tables
    show Flushable (e.runCompaction inputs now created).1
    rcases hM.runCompaction hv inputs now created with heq | ⟨⟨M', D', hc⟩, hs, hv'⟩
    · rwa [heq]
    · exact ⟨hs.config ▸ h.interval, hs.immutables ▸ h.immutables, M', D', hc.holds, hv'⟩

theorem flushable_open {config : Config} (hi : 1 ≤ config.restartInterval) {d : Disk}
    {D : List LiveTable} (hD : d.Holds D) (ho : Engine.open config d = .ok e) : Flushable e := by
  obtain ⟨M, -, -, hM⟩ := exists_loaded hD config
  obtain rfl := eq_of_open ho
  obtain ⟨ps, q, -, hne, hreplayed⟩ :=
    config.exists_pieces (WalLog.open (Engine.loaded config d).wal).2
  refine ⟨by rw [recover_eq]; exact hi, fun m hm => ?_, M, M, hM, by rw [recover_eq]⟩
  rw [recover_eq, hreplayed] at hm
  obtain ⟨p, hp, rfl⟩ := List.mem_map.mp (List.mem_reverse.mp hm)
  obtain ⟨s, r, rfl⟩ : ∃ s r, p = s ++ [r] :=
    ⟨_, _, (List.dropLast_append_getLast (hne p hp)).symm⟩
  rw [config.memtable_snoc]
  exact entries_applyRecord_ne_nil _ _

def Host.Flushable : Host → Prop
  | .shut d => ∃ D, d.Holds D
  | .up e => LsmKv.Flushable e

theorem flushable_step {ok : Engine → Call → Prop} {s s' : Host} (h : s.Flushable)
    (hs : Host.Step (fun c => 1 ≤ c.restartInterval) ok s s') : s'.Flushable := by
  cases hs with
  | «open» hc ho =>
    obtain ⟨D, hD⟩ := h
    exact flushable_open hc hD ho
  | call hc => exact LsmKv.Flushable.perform h _
  | close =>
    obtain ⟨M, D, hM, -⟩ := LsmKv.Flushable.tables h
    exact ⟨D, hM.close⟩
  | crash hc hd =>
    obtain ⟨M, D, hM, -⟩ := LsmKv.Flushable.tables h
    obtain ⟨M', D', hM', -⟩ := (LsmKv.Flushable.perform h _).tables
    exact (hd.holds hM.disk hM'.disk).elim (fun hD => ⟨D, hD⟩) (fun hD => ⟨D', hD⟩)
  | crashOpen hd =>
    obtain ⟨D, hD⟩ := h
    exact ⟨D, (hd.holds hD hD).elim id id⟩

/-! ## Publishing -/

theorem Flushable.exists_table (h : Flushable e) {target : Memtable}
    (ht : e.immutables.getLast? = some target) : ∃ first last r file,
      target.map.entries.head? = some first ∧ target.map.entries.getLast? = some last ∧
      Sst.writeSstable e.manifest.nextSstId target (e.config.sst target.entries) = .ok (r, file) ∧
      r.minKey = first.1 ∧ r.maxKey = last.1 := by
  have hne := h.immutables target (List.mem_of_getLast? ht)
  obtain ⟨first, rest, hrows⟩ := List.exists_cons_of_ne_nil hne
  have hlast := List.getLast?_eq_some_getLast hne
  have hinterval : (e.config.sst target.entries).restartInterval ≠ 0 := by
    have := h.interval
    show e.config.restartInterval ≠ 0
    omega
  refine ⟨first, target.map.entries.getLast hne, _, _, by rw [hrows]; rfl, hlast,
    by rw [Sst.writeSstable, hrows]; exact if_neg hinterval, rfl, ?_⟩
  show (Sst.buildBlocks _ target).maxKey = _
  rw [(Sst.sums_buildBlocks _ target).maxKey, hlast]
  rfl

theorem flushOne_of_written {target : Memtable} (ht : e.immutables.getLast? = some target)
    {e' : Engine} {r : Sst.SstBuildResult} (hw : e.writeSstable target = .ok (e', r)) (now : ℕ) :
    e.flushOne now = match e'.publishFlushAt none (r.toMeta now) with
      | (e, .error x) => (e, .error x)
      | (e, .ok _) => (e.removeCovered, .ok true) := by
  rw [Engine.flushOne, Engine.flushOneAt, ht]
  dsimp only
  generalize e.writeSstable target = out at hw ⊢
  subst hw
  rfl

end

/-- Settings whose manifest is dumped as the library does. -/
abbrev strictUtf8 : Config := { oneRow with isUtf8 := validUtf8 }

end LsmKv
