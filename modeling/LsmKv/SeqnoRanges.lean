import LsmKv.CompactionEffect
import LsmKv.EngineOpen
import LsmKv.Sessions

/-!
# Ranges of sequence numbers across sessions

A table list keeps its ranges apart and descending as long as every flushed memtable is wholly
newer than what is listed. Nothing in the source makes sure of that: a log segment outlives the
flush of its records while it is the active one, and replay brings them back.
-/

namespace LsmKv
open Sst (TableMeta)
open OrderedMap

/-! ## What the steps of a host do to the table set -/

/-- The table set, the settings and the readers' view of them are as they were. -/
structure SameTables (e e' : Engine) : Prop where
  manifest : e'.manifest = e.manifest
  readers : e'.readers = e.readers
  files : e'.files = e.files
  stored : e'.stored = e.stored
  misindexed : e'.misindexed = e.misindexed
  config : e'.config = e.config
  version : e.version.tables = e.readers → e'.version.tables = e.readers

theorem sameTables_write (del : Bool) (key value : Bytes) (e : Engine) :
    SameTables e (e.write del key value).1 := by
  have hrefl : SameTables e e := ⟨rfl, rfl, rfl, rfl, rfl, rfl, id⟩
  rw [Engine.write]
  split
  · exact hrefl
  split
  · exact hrefl
  split
  · exact hrefl
  split
  · exact ⟨rfl, rfl, rfl, rfl, rfl, rfl, id⟩
  · rename_i l seqno _
    rcases Engine.applyMutation_cases false { e with wal := l } ⟨del, key, value, seqno⟩ with
      ⟨-, heq⟩ | ⟨-, heq⟩
    · rw [heq]
      exact ⟨rfl, rfl, rfl, rfl, rfl, rfl, id⟩
    · rw [heq]
      exact ⟨rfl, rfl, rfl, rfl, rfl, rfl, fun _ => rfl⟩

theorem SameTables.holds {e e' : Engine} (h : SameTables e e') {M D : List LiveTable}
    (hM : Holds e M D) : Holds e' M D :=
  hM.of_eq h.manifest h.readers h.files h.stored h.config

theorem disk_close (e : Engine) :
    e.close.disk.manifest = e.stored ∧ e.close.disk.files = e.files := by
  rw [Engine.close]
  split <;> exact ⟨rfl, rfl⟩

theorem Disk.Holds.of_eq {d d' : Disk} {D : List LiveTable} (h : d.Holds D)
    (hm : d'.manifest = d.manifest) (hf : ∀ T ∈ D, d'.files.find? T.info.id = some T.rows) :
    d'.Holds D := by
  refine ⟨?_, hf, h.inj, h.nodup⟩
  rw [Disk.storedTables, hm]
  exact h.stored

theorem Holds.close {e : Engine} {M D : List LiveTable} (h : Holds e M D) :
    e.close.disk.Holds D := by
  obtain ⟨hm, hf⟩ := disk_close e
  exact h.disk.of_eq hm (fun T hT => hf ▸ h.disk.files T hT)

theorem Disk.Crashes.holds {d₁ d₂ d : Disk} (hc : Disk.Crashes d₁ d₂ d) {D₁ D₂ : List LiveTable}
    (h₁ : d₁.Holds D₁) (h₂ : d₂.Holds D₂) : d.Holds D₁ ∨ d.Holds D₂ := by
  obtain ⟨s, hs, hm, hf⟩ := hc.tables
  have hkeep : ∀ D, s.Holds D → d.Holds D := by
    intro D hD
    refine hD.of_eq hm (fun T hT => ?_)
    rw [(hf T.info (hD.stored.mem_iff.mpr (List.mem_map_of_mem hT))).1]
    exact hD.files T hT
  rcases List.mem_pair.mp hs with rfl | rfl
  · exact .inl (hkeep D₁ h₁)
  · exact .inr (hkeep D₂ h₂)

/-- A manifest whose tables are in order is loaded as it is. -/
theorem restore_of_descending (sort : TableSort) {d : Disk} {D : List LiveTable}
    (h : d.Holds D) (hD : Newest D) :
    (Manifest.restore sort d.manifest).tables = D.map (·.info) := by
  have hstored := h.stored
  rw [Disk.storedTables] at hstored
  rcases hm : d.manifest with _ | m
  · rw [hm] at hstored
    exact (List.Perm.nil_eq hstored).symm ▸ rfl
  · rw [hm] at hstored
    exact sort.run_eq hstored.symm hD

/-- The tables after a compaction: the output is where the inputs were. -/
theorem Compacted.tables {e e' : Engine} {M D M' D' : List LiveTable} {choice : Option (List ℕ)}
    {now : ℕ} (hc : Compacted e M D choice now e' M' D') (hn : Newest M) :
    ∃ ids front inputs back out, Selects M ids front inputs back ∧
      Merges (front ++ back) inputs (e.drops ids now) out ∧
      M'.map (·.info) = (front ++ (out.toList ++ back)).map (·.info) := by
  obtain ⟨ids, front, inputs, back, out, -, hs, hmerges, hperm, htables⟩ := hc.plan
  refine ⟨ids, front, inputs, back, out, hs, hmerges, htables.trans ?_⟩
  refine TableSort.run_eq _ ?_ (hmerges.placed hs.nonempty (hs.split ▸ hn))
  exact ((List.perm_append_comm).append_left front).map _

/-! ## Ranges apart -/

/-- Tables newest first, with ranges of 64-bit numbers that do not touch. -/
structure Apart (ts : List LiveTable) : Prop where
  separated : Separated (ts.map (·.info))
  bounded : ∀ T ∈ ts, T.info.maxSeqno < 2 ^ 64

/-- A flush takes a memtable that is wholly newer than every listed table. -/
def Ahead (e : Engine) : Call → Prop
  | .flushOne _ => ∀ target ∈ e.immutables.getLast?, ∀ p ∈ target.map.entries,
      e.manifest.maxSeqno < p.2.seqno ∧ p.2.seqno < 2 ^ 64
  | _ => True

instance (e : Engine) : (c : Call) → Decidable (Ahead e c)
  | .flushOne _ => inferInstanceAs (Decidable (∀ target ∈ e.immutables.getLast?,
      ∀ p ∈ target.map.entries, e.manifest.maxSeqno < p.2.seqno ∧ p.2.seqno < 2 ^ 64))
  | .put _ _ | .remove _ | .runCompaction .. => inferInstanceAs (Decidable True)

theorem Apart.cons {ts : List LiveTable} (h : Apart ts) {T : LiveTable} {n : ℕ}
    (hn : ∀ U ∈ ts, U.info.maxSeqno ≤ n)
    (hT : ∀ p ∈ T.rows.entries, n < p.2.seqno ∧ p.2.seqno < 2 ^ 64) : Apart (T :: ts) := by
  obtain ⟨top, htop, hmax⟩ := T.attained
  have htop64 := (hT top htop).2
  have hmin : n + 1 ≤ T.info.minSeqno :=
    T.le_min (n + 1) (by have := (hT top htop).1; omega) (fun p hp => (hT p hp).1)
  refine ⟨separated_iff.mpr (List.pairwise_cons.mpr ⟨fun U hU => ?_, separated_iff.mp h.separated⟩),
    fun U hU => ?_⟩
  · have := hn U hU
    omega
  · rcases List.mem_cons.mp hU with rfl | hU
    · omega
    · exact h.bounded U hU

theorem Compacted.apart {e e' : Engine} {M D M' D' : List LiveTable} {choice : Option (List ℕ)}
    {now : ℕ} (hc : Compacted e M D choice now e' M' D') (h : Apart M) : Apart M' := by
  obtain ⟨ids, front, inputs, back, out, hs, hmerges, hM'⟩ := hc.tables h.separated.newest
  have hsep := h.separated
  rw [hs.split] at hsep
  have hinputs : ∀ T ∈ inputs, T.info.maxSeqno < 2 ^ 64 := fun T hT =>
    h.bounded T (hs.mem.mpr (.inr hT))
  have hback : ∀ T ∈ back, T.info.maxSeqno + 1 < 2 ^ 64 := by
    intro T hT
    obtain ⟨U, hU⟩ := List.exists_mem_of_ne_nil inputs hs.nonempty
    have hlt := (List.pairwise_append.mp
      (List.pairwise_append.mp (separated_iff.mp hsep)).2.1).2.2 U hU T hT
    have hmax := hinputs U hU
    have := U.min_le_max
    omega
  refine ⟨hM' ▸ hmerges.separated hs.nonempty hsep hback, fun T hT => ?_⟩
  have hinfo : T.info ∈ (front ++ (out.toList ++ back)).map (·.info) :=
    hM' ▸ List.mem_map_of_mem hT
  obtain ⟨U, hU, hUT⟩ := List.mem_map.mp hinfo
  rw [← hUT]
  rcases List.mem_append.mp hU with hU | hU
  · exact h.bounded U (hs.mem.mpr (.inl (List.mem_append_left _ hU)))
  rcases List.mem_append.mp hU with hU | hU
  · obtain ⟨k, r, hk, hr⟩ := U.exists_top
    obtain ⟨V, hV, hkV⟩ := exists_of_tableHit (hmerges.of_find? (Option.mem_toList.mp hU) hk)
    have := LiveTable.seqno_le hkV
    have := hinputs V hV
    omega
  · exact h.bounded U (hs.mem.mpr (.inl (List.mem_append_right _ hU)))

/-- What a host keeps when its flushes are ahead. -/
def Host.Apart : Host → Prop
  | .shut d => ∃ D, d.Holds D ∧ LsmKv.Apart D
  | .up e => ∃ M D, Holds e M D ∧ e.version.tables = e.readers ∧ LsmKv.Apart M ∧ LsmKv.Apart D

theorem apart_perform {e : Engine} {c : Call} (h : Host.Apart (.up e)) (hc : Ahead e c) :
    Host.Apart (.up (e.perform c)) := by
  obtain ⟨M, D, hM, hv, hMa, hDa⟩ := h
  have hwrite : ∀ del key value, Host.Apart (.up (e.write del key value).1) := by
    intro del key value
    have hs := sameTables_write del key value e
    exact ⟨M, D, hs.holds hM, (hs.version hv).trans hs.readers.symm, hMa, hDa⟩
  cases c with
  | put key value => exact hwrite false key value
  | remove key => exact hwrite true key []
  | flushOne now =>
    have hnew : ∀ target T, e.immutables.getLast? = some target → T.rows = target.map →
        LsmKv.Apart (T :: M) := by
      intro target T htarget hrows
      refine hMa.cons (n := e.manifest.maxSeqno)
        (fun U hU => Manifest.le_maxSeqno (hM.mem_manifest hU)) (fun p hp => ?_)
      rw [hrows] at hp
      exact hc target htarget p hp
    rcases hM.flushOne now with ⟨heq, -⟩ | ⟨target, T, hf, -⟩ | ⟨target, T, hf, -⟩
    · show Host.Apart (.up (e.flushOne now).1)
      rw [heq]
      exact ⟨M, D, hM, hv, hMa, hDa⟩
    · have hapart := hnew target T hf.oldest hf.rows
      obtain ⟨files, misindexed, heq⟩ := hf.eq
      exact ⟨_, _, hf.holds, congrArg (fun e : Engine => e.version.tables) heq |>.trans
        (congrArg Engine.readers heq).symm, hapart, hapart⟩
    · obtain ⟨files, misindexed, heq⟩ := hf.eq
      refine ⟨_, _, hf.holds, ?_, hnew target T hf.oldest hf.rows, hDa⟩
      show (e.flushOne now).1.version.tables = (e.flushOne now).1.readers
      rw [heq]
      exact hv
  | runCompaction inputs now created =>
    rcases hM.runCompaction hv inputs now created with heq | ⟨⟨M', D', hc'⟩, -, hv'⟩
    · show Host.Apart (.up (e.runCompaction inputs now created).1)
      rw [heq]
      exact ⟨M, D, hM, hv, hMa, hDa⟩
    · have hapart := hc'.apart hMa
      refine ⟨M', D', hc'.holds, hv', hapart, ?_⟩
      rcases hc'.readers with rfl | rfl
      · exact hDa
      · exact hapart

theorem apart_open {config : Config} {d : Disk} {e : Engine} (h : Host.Apart (.shut d))
    (ho : Engine.open config d = .ok e) : Host.Apart (.up e) := by
  obtain ⟨D, hD, hDa⟩ := h
  obtain ⟨M, hperm, hmap, hM⟩ := exists_loaded hD config
  obtain rfl := eq_of_open ho
  have hinfo : M.map (·.info) = D.map (·.info) :=
    hmap.trans (restore_of_descending config.sort hD hDa.separated.newest)
  have hMa : LsmKv.Apart M :=
    ⟨hinfo ▸ hDa.separated, fun T hT => hDa.bounded T (hperm.mem_iff.mp hT)⟩
  exact ⟨M, M, hM, by rw [recover_eq], hMa, hMa⟩

theorem apart_step {opens : Config → Prop} {s s' : Host} (h : s.Apart)
    (hs : Host.Step opens Ahead s s') : s'.Apart := by
  cases hs with
  | «open» hc ho => exact apart_open h ho
  | call hc => exact apart_perform h hc
  | close =>
    obtain ⟨M, D, hM, -, -, hDa⟩ := h
    exact ⟨D, hM.close, hDa⟩
  | crash hc hd =>
    obtain ⟨M', D', hM', -, -, hDa'⟩ := apart_perform h hc
    obtain ⟨M, D, hM, -, -, hDa⟩ := h
    rcases hd.holds hM.disk hM'.disk with hD | hD
    · exact ⟨D, hD, hDa⟩
    · exact ⟨D', hD, hDa'⟩
  | crashOpen hd =>
    obtain ⟨D, hD, hDa⟩ := h
    exact ⟨D, (hd.holds hD hD).elim id id, hDa⟩

/-- In every run whose flushes are ahead of the listed tables, the tables of the manifest and of
the readers are newest first with ranges apart. -/
theorem separated_of_ahead (opens : Config → Prop) {e : Engine}
    (hrun : Host.Runs opens Ahead (.shut {}) (.up e)) :
    Separated e.manifest.tables ∧ Separated e.readers := by
  have hempty : Host.Apart (.shut {}) :=
    ⟨[], disk_holds_empty, .nil, fun _ hT => nomatch hT⟩
  obtain ⟨M, D, hM, -, hMa, hDa⟩ := hrun.invariant (fun _ _ h hs => apart_step h hs) hempty
  exact ⟨hM.manifest ▸ hMa.separated, hM.readers ▸ hDa.separated⟩

/-- A memtable takes one row, and one immutable is let be. -/
abbrev oneRow : Config := Config.small 1 1 1000

theorem separated_oneRow :
    Separated ((Host.opened oneRow {}).performAll
        [.put [97] [1], .flushOne 5, .put [98] [2], .flushOne 5]).manifest.tables ∧
      Separated ((Host.opened oneRow {}).performAll
        [.put [97] [1], .flushOne 5, .put [98] [2], .flushOne 5]).readers :=
  separated_of_ahead (fun c => c = oneRow)
    (Host.runs_session rfl (Host.open_of_map (by decide +kernel)) (by decide +kernel))

/-- The second row shares a segment with the first and has no memtable to itself until the
directory is opened again; from then on every session flushes it anew. -/
def flushedAnew : Engine :=
  (Host.opened oneRow (Host.after {} [(oneRow, [.put [97] [1], .put [98] [2]]),
    (oneRow, [.flushOne 5]), (oneRow, [.flushOne 5])])).performAll [.flushOne 5]

theorem not_separated_flushedAnew :
    Host.Runs (fun c => c = oneRow) (fun _ _ => True) (.shut {}) (.up flushedAnew) ∧
      flushedAnew.manifest.tables.map (fun t => (t.minSeqno, t.maxSeqno)) =
        [(2, 2), (2, 2), (1, 1)] ∧
      ¬Separated flushedAnew.manifest.tables := by
  refine ⟨.trans (Host.runs_sessions ?_ ?_) (Host.runs_session rfl (Host.open_of_map ?_) ?_),
    ?_, ?_⟩
  · simp
  all_goals decide +kernel

end LsmKv
