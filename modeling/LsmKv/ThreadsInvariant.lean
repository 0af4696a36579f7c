import LsmKv.ReopenedReads
import LsmKv.Threads

/-!
# What holds between the threads' steps

The applied mutations fall into those in tables and those in the memtables; the log holds at
least the latter. Each place a thread may stand at says what it has established.
-/

namespace LsmKv
open Sst (TableMeta)
open OrderedMap

/-! ## The log -/

/-- The log holds an end of the mutations `L`, and `rest` of them at least. -/
structure Keeps (w : Wal Record) (L rest : List Record) : Prop where
  intact : WalLog.Intact w
  isOpen : w.isOpen = true
  ascending : Ascending L
  bounded : ∀ r ∈ L, r.seqno ≤ w.lastSeqno
  positive : ∀ r ∈ L, 0 < r.seqno
  suffix : WalLog.records w.dir <:+ L
  rest : rest <:+ WalLog.records w.dir

section
variable {w : Wal Record} {L rest : List Record}

theorem Keeps.roll (h : Keeps w L rest) : Keeps (WalLog.rollSegment w) L rest := by
  have hroll := WalLog.rolls_rollSegment h.intact
  exact ⟨hroll.intact, hroll.isOpen, h.ascending, h.bounded, h.positive,
    hroll.records.symm ▸ h.suffix, hroll.records.symm ▸ h.rest⟩

theorem Keeps.append (h : Keeps w L rest) {r : Record} (hr : r.seqno = w.lastSeqno + 1) :
    Keeps (WalLog.appendRecord r w) (L ++ [r]) (rest ++ [r]) := by
  have hnext : w.lastSeqno < r.seqno := hr ▸ Nat.lt_succ_self w.lastSeqno
  obtain ⟨_, _, -, -, happ⟩ := WalLog.appends_appendRecord h.intact h.isOpen hnext
  have hlt : ∀ a ∈ L, a.seqno < r.seqno := fun a ha => by
    have := h.bounded a ha
    omega
  refine ⟨happ.intact, happ.isOpen,
    List.pairwise_append.mpr ⟨h.ascending, List.pairwise_singleton _ _, by simpa using hlt⟩,
    fun a ha => ?_, fun a ha => ?_, ?_, ?_⟩
  · rw [happ.lastSeqno]
    rcases List.mem_append.mp ha with ha | ha
    · exact (hlt a ha).le
    · exact (List.mem_singleton.mp ha ▸ le_rfl)
  · rcases List.mem_append.mp ha with ha | ha
    · exact h.positive a ha
    · exact List.mem_singleton.mp ha ▸ hr ▸ Nat.succ_pos _
  · rw [happ.records]
    exact (List.suffix_append_inj_of_length_eq rfl).mpr ⟨h.suffix, rfl⟩
  · rw [happ.records]
    exact (List.suffix_append_inj_of_length_eq rfl).mpr ⟨h.rest, rfl⟩

theorem Keeps.shrink (h : Keeps w L rest) {rest' : List Record} (hrest : rest' <:+ rest) :
    Keeps w L rest' :=
  { h with rest := hrest.trans h.rest }

/-- A suffix above `n` is behind what is at or below it. -/
theorem suffix_of_above {gone kept rest : List Record} {n : ℕ} (h : rest <:+ gone ++ kept)
    (hgone : ∀ r ∈ gone, r.seqno ≤ n) (hrest : ∀ r ∈ rest, n < r.seqno) : rest <:+ kept := by
  obtain ⟨s, hs⟩ := h
  rcases List.append_eq_append_iff.mp hs with ⟨t, rfl, rfl⟩ | ⟨t, rfl, rfl⟩
  · rcases t with _ | ⟨a, t⟩
    · exact List.suffix_refl _
    · have := hgone a (by simp)
      have := hrest a (by simp)
      omega
  · exact List.suffix_append t rest

/-- Removal below `rest`, cut short or not. -/
theorem Keeps.removeFirst (h : Keeps w L rest) {n : ℕ} (hrest : ∀ r ∈ rest, n < r.seqno)
    (k : ℕ) : Keeps (w.removeFirst n k) L rest := by
  obtain ⟨gone, hsplit, hgone⟩ := h.intact.records_removeFirst n k
  obtain ⟨dir, maxima, heq⟩ := WalLog.foldl_removeStep_eq n w (w.dir.keys.take k)
  have hlast : (w.removeFirst n k).lastSeqno = w.lastSeqno := by rw [Wal.removeFirst, heq]
  refine ⟨h.intact.removeFirst n k, ?_, h.ascending, hlast ▸ h.bounded, h.positive, ?_, ?_⟩
  · rw [Wal.removeFirst, heq]
    exact h.isOpen
  · exact List.IsSuffix.trans ⟨gone, hsplit.symm⟩ h.suffix
  · exact suffix_of_above (hsplit ▸ h.rest) hgone hrest

end

/-! ## Tables and memtables -/

/-- The first hit of a key is its newest row. -/
def Tops (ts : List LiveTable) : Prop := ∀ k e, tableHit k ts = some e → TopRow ts k e

/-- Of the applied mutations `A`, those in `B` are in the tables `D`, the others in memtables. -/
structure Stored (e : Engine) (A B : List Record) (ps : List (List Record)) (q : List Record)
    (D : List LiveTable) : Prop where
  applied : A = B ++ (ps.flatten ++ q)
  immutables : e.immutables = (ps.map e.config.memtable).reverse
  active : e.active = e.config.memtable q
  nonempty : ∀ p ∈ ps, p ≠ []
  version : e.version = ⟨e.immutables, e.readers⟩
  isOpen : e.closed = false
  holds : Holds e D D
  newest : Newest D
  tops : Tops D
  rows : ∀ T ∈ D, ∀ k row, T.rows.find? k = some row → ∃ r ∈ B, r.key = k ∧ r.row = row
  reads : ∀ k, (tableHit k D).bind MemEntry.result = lastWritten B k

section
variable {e : Engine} {A B : List Record} {ps : List (List Record)} {q : List Record}
  {D : List LiveTable}

theorem Stored.wal (h : Stored e A B ps q D) (w : Wal Record) :
    Stored { e with wal := w } A B ps q D :=
  ⟨h.applied, h.immutables, h.active, h.nonempty, h.version, h.isOpen,
    h.holds.of_eq rfl rfl rfl rfl rfl, h.newest, h.tops, h.rows, h.reads⟩

theorem Stored.temps (h : Stored e A B ps q D) (temps : List ℕ) :
    Stored { e with temps := temps } A B ps q D :=
  ⟨h.applied, h.immutables, h.active, h.nonempty, h.version, h.isOpen,
    h.holds.of_eq rfl rfl rfl rfl rfl, h.newest, h.tops, h.rows, h.reads⟩

/-- A file under the next id that nothing lists yet. -/
theorem Stored.place (h : Stored e A B ps q D) (mem : Memtable) :
    Stored (e.placeFile e.manifest.nextSstId mem) A B ps q D :=
  ⟨h.applied, h.immutables, h.active, h.nonempty, h.version, h.isOpen, h.holds.write mem,
    h.newest, h.tops, h.rows, h.reads⟩

/-- The file of a table that the version does not list may go. -/
theorem Stored.erase (h : Stored e A B ps q D) {gone : ℕ}
    (hgone : ∀ t ∈ e.version.tables, t.id ≠ gone) :
    Stored { e with files := e.files.erase gone } A B ps q D := by
  refine ⟨h.applied, h.immutables, h.active, h.nonempty, h.version, h.isOpen,
    ⟨h.holds.manifest, h.holds.readers, fun T hT => ?_, h.holds.fresh, h.holds.inj, h.holds.nodup,
      h.holds.stored, h.holds.clean⟩, h.newest, h.tops, h.rows, h.reads⟩
  have hne : gone ≠ T.info.id := by
    refine (hgone T.info ?_).symm
    rw [h.version]
    show T.info ∈ e.readers
    rw [← h.holds.readers]
    exact List.mem_map_of_mem ((List.mem_append.mp hT).elim id id)
  show (e.files.erase gone).find? T.info.id = _
  rw [find?_erase, if_neg hne]
  exact h.holds.files T hT

theorem Stored.apply (h : Stored e A B ps q D) (r : Record) :
    Stored (e.apply r) (A ++ [r]) B ps (q ++ [r]) D := by
  refine ⟨?_, h.immutables, ?_, h.nonempty, h.version, h.isOpen,
    h.holds.of_eq rfl rfl rfl rfl rfl, h.newest, h.tops, h.rows, h.reads⟩
  · rw [h.applied]
    simp
  · show e.active.applyRecord r = e.config.memtable (q ++ [r])
    rw [h.active, e.config.memtable_snoc]

theorem Stored.rotate (h : Stored e A B ps q D) (hr : Threads.rotates e = true) (hq : q ≠ []) :
    Stored (e.maybeRotate false) A B (ps ++ [q]) [] D := by
  rw [Threads.maybeRotate_of_rotates hr]
  refine ⟨?_, ?_, rfl, fun p hp => ?_, rfl, h.isOpen, h.holds.of_eq rfl rfl rfl rfl rfl, h.newest,
    h.tops, h.rows, h.reads⟩
  · rw [h.applied]
    simp
  · show e.active :: e.immutables = _
    rw [h.active, h.immutables]
    simp
  · rcases List.mem_append.mp hp with hp | hp
    · exact h.nonempty p hp
    · exact List.mem_singleton.mp hp ▸ hq

/-! ## Publishing -/

/-- All keys of the tables are keys of mutations. -/
theorem dumps_of_rows {isUtf8 : Bytes → Bool} {m : Manifest} {ts : List LiveTable}
    (htables : ts.map (·.info) = m.tables) {L : List Record}
    (hrows : ∀ T ∈ ts, ∀ k row, T.rows.find? k = some row → ∃ r ∈ L, r.key = k ∧ r.row = row)
    (hutf8 : ∀ r ∈ L, isUtf8 r.key = true) : m.dumps isUtf8 = true := by
  rw [Manifest.dumps, ← htables, List.all_map]
  refine List.all_eq_true.mpr (fun T hT => ?_)
  have hkey : ∀ p ∈ T.rows.entries, isUtf8 p.1 = true := by
    intro p hp
    obtain ⟨r, hr, hk, -⟩ := hrows T hT p.1 p.2 (find?_eq_some_iff.mpr hp)
    exact hk ▸ hutf8 r hr
  obtain ⟨p, hp, p', hp', hmin, hmax⟩ := T.keyed
  show (isUtf8 T.info.minKey && isUtf8 T.info.maxKey) = true
  rw [← hmin, ← hmax, hkey p hp, hkey p' hp']
  rfl

/-- What is in tables is older than what is only in memtables. -/
theorem Stored.older (h : Stored e A B ps q D) (hA : Ascending A) {r : Record}
    (hr : r ∈ ps.flatten ++ q) : ∀ a ∈ B, a.seqno < r.seqno := by
  rw [h.applied] at hA
  exact fun a ha => (List.pairwise_append.mp hA).2.2 a ha r hr

theorem Stored.max_lt (h : Stored e A B ps q D) {n : ℕ} (hn : ∀ a ∈ B, a.seqno < n)
    {T : LiveTable} (hT : T ∈ D) : T.info.maxSeqno < n := by
  obtain ⟨k, row, hrow, hmax⟩ := T.exists_top
  obtain ⟨a, ha, -, rfl⟩ := h.rows T hT k row hrow
  exact hmax ▸ hn a ha

theorem Stored.watermark_lt (h : Stored e A B ps q D) {n : ℕ} (hn : ∀ a ∈ B, a.seqno < n)
    (hpos : 0 < n) : e.manifest.maxSeqno < n := by
  rcases e.manifest.exists_maxSeqno with hzero | ⟨t, ht, hmax⟩
  · omega
  · rw [← h.holds.manifest] at ht
    obtain ⟨T, hT, rfl⟩ := List.mem_map.mp ht
    exact hmax ▸ h.max_lt hn hT

theorem Stored.oldest (h : Stored e A B ps q D) {target : Memtable}
    (ht : e.immutables.getLast? = some target) :
    ∃ p ps', ps = p :: ps' ∧ target = e.config.memtable p := by
  rw [h.immutables] at ht
  rcases ps with _ | ⟨p, ps'⟩
  · cases ht
  · exact ⟨p, ps', rfl, by simpa using ht.symm⟩

/-- What a flush publishes. -/
theorem Stored.flush (h : Stored e A B ps q D) (hA : Ascending A)
    (hutf8 : ∀ r ∈ A, e.config.isUtf8 r.key = true) {T : LiveTable} {target : Memtable}
    (hT : Adds e T) (hrows : T.rows = target.map) (ht : e.immutables.getLast? = some target) :
    ∃ e' p ps', e.publishFlush T.info = (e', .ok ()) ∧ ps = p :: ps' ∧ e'.wal = e.wal ∧
      e'.config = e.config ∧ Stored e' A (B ++ p) ps' q (T :: D) := by
  obtain ⟨p, ps', rfl, rfl⟩ := h.oldest ht
  have hp := h.nonempty p List.mem_cons_self
  have hof := tableOf_memtable hp hrows
  have happlied := h.applied
  rw [List.flatten_cons, List.append_assoc, ← List.append_assoc] at happlied
  have hascending := hA
  rw [happlied] at hascending
  have hBp := (List.pairwise_append.mp hascending).1
  have hrows' : ∀ U ∈ T :: D, ∀ k row, U.rows.find? k = some row →
      ∃ r ∈ B ++ p, r.key = k ∧ r.row = row := by
    refine List.forall_mem_cons.mpr ⟨fun k row hrow => ?_, fun U hU k row hrow => ?_⟩
    · obtain ⟨z, hz, rfl⟩ := hof.exists_record hrow
      obtain ⟨hzp, hzk⟩ := mem_of_lastRecord hz
      exact ⟨z, List.mem_append_right _ hzp, hzk, rfl⟩
    · obtain ⟨r, hr, hk, hrow⟩ := h.rows U hU k row hrow
      exact ⟨r, List.mem_append_left _ hr, hk, hrow⟩
  have hdumps : (e.manifest.addTable T.info).dumps e.config.isUtf8 = true := by
    have htables : (T :: D).map (·.info) = (e.manifest.addTable T.info).tables :=
      congrArg (T.info :: ·) h.holds.manifest
    exact dumps_of_rows htables hrows' fun r hr => hutf8 r (happlied ▸ List.mem_append_left _ hr)
  have hnewer : ∀ k row, T.rows.find? k = some row → ∀ U ∈ D, U.info.maxSeqno < row.seqno := by
    intro k row hrow U hU
    obtain ⟨z, hz, rfl⟩ := hof.exists_record hrow
    refine h.max_lt (h.older hA ?_) hU
    rw [List.flatten_cons, List.append_assoc]
    exact List.mem_append_left _ (mem_of_lastRecord hz).1
  rcases h.holds.publishFlush hT with ⟨-, hpub, hholds⟩ | ⟨hpub, -⟩
  · refine ⟨_, p, ps', hpub, rfl, rfl, rfl, ?_⟩
    rw [hpub] at hholds
    refine ⟨happlied, ?_, h.active, fun p' hp' => h.nonempty p' (List.mem_cons_of_mem _ hp'), rfl,
      h.isOpen, hholds, ?_, fun k row hrow => ?_, hrows', fun k => ?_⟩
    · show e.immutables.dropLast = _
      rw [h.immutables]
      simp
    · refine newest_iff.mpr (List.pairwise_cons.mpr ⟨fun U hU => ?_, newest_iff.mp h.newest⟩)
      obtain ⟨k, row, hrow, hmax⟩ := T.exists_top
      exact hmax ▸ hnewer k row hrow U hU
    · rw [tableHit_cons] at hrow
      rcases hfind : T.rows.find? k with _ | row'
      · rw [hfind, Option.none_or] at hrow
        obtain ⟨⟨U, hU, hheld⟩, hgreatest⟩ := h.tops k row hrow
        refine ⟨⟨U, List.mem_cons_of_mem _ hU, hheld⟩,
          List.forall_mem_cons.mpr ⟨fun _ hnone => ?_, hgreatest⟩⟩
        rw [hfind] at hnone
        cases hnone
      · rw [hfind, Option.some_or] at hrow
        obtain rfl := Option.some.inj hrow
        refine ⟨⟨T, List.mem_cons_self, hfind⟩, List.forall_mem_cons.mpr ⟨fun row hrow' => ?_,
          fun U hU row hrow' => ?_⟩⟩
        · rw [hfind] at hrow'
          exact (Option.some.inj hrow' ▸ le_rfl)
        · exact ((LiveTable.seqno_le hrow').trans_lt (hnewer k _ hfind U hU)).le
    · rw [lastWritten, lastRecord_append, tableHit_cons, hof.rows]
      rcases hz : lastRecord k p with _ | z
      · exact h.reads k
      · rfl
  · exfalso
    have hok : (e.publishFlush T.info).2 = .ok () := by
      rw [Engine.publishFlush, Engine.publishFlushAt, Engine.saveAt, if_pos hdumps]
    rw [hpub] at hok
    cases hok

/-- What a compaction publishes. -/
theorem Stored.compact (h : Stored e A B ps q D) (hutf8 : ∀ r ∈ A, e.config.isUtf8 r.key = true)
    {ids : List ℕ} {front inputs back : List LiveTable} {gone : MemEntry → Bool}
    {out : Option LiveTable} (hs : Selects D ids front inputs back)
    (hm : Merges (front ++ back) inputs gone out) (hadds : ∀ T ∈ out, Adds e T) :
    ∃ e' removed, e.publishCompaction ids (out.map (·.info)) = (e', .ok removed) ∧
      e'.wal = e.wal ∧ e'.config = e.config ∧
      Stored e' A B ps q (front ++ (out.toList ++ back)) := by
  have hnewest : Newest (front ++ (out.toList ++ back)) :=
    hm.placed hs.nonempty (hs.split ▸ h.newest)
  have hperm : (front ++ (out.toList ++ back)).Perm (front ++ (back ++ out.toList)) :=
    List.perm_append_comm.append_left front
  have hrows : ∀ T ∈ front ++ (out.toList ++ back), ∀ k row, T.rows.find? k = some row →
      ∃ r ∈ B, r.key = k ∧ r.row = row := by
    intro T hT k row hrow
    obtain ⟨U, hU, hrow⟩ := hm.exists_row hs hT hrow
    exact h.rows U hU k row hrow
  have hedit := h.holds.compactionEdit hs hadds hperm
    (TableSort.run_eq e.config.sort (hperm.map _) hnewest).symm
  have hdumps := dumps_of_rows hedit.tables hrows
    (fun r hr => hutf8 r (h.applied ▸ List.mem_append_left _ hr))
  have hcases := fun k => hm.tableHit_cases hs (k := k) (h.tops k)
  rcases h.holds.publishCompaction hedit with ⟨m, readers, -, hpub, hholds⟩ | ⟨m, -, hpub, -⟩
  · refine ⟨_, _, hpub, rfl, rfl, ?_⟩
    rw [hpub] at hholds
    refine ⟨h.applied, h.immutables, h.active, h.nonempty, rfl, h.isOpen, hholds, hnewest,
      fun k row hrow => ?_, hrows, fun k => ?_⟩
    · obtain ⟨T, hT, hheld⟩ := exists_of_tableHit hrow
      refine ⟨⟨T, hT, hheld⟩, fun U hU row' hrow' => ?_⟩
      obtain ⟨X, hX, hXrow⟩ := hm.exists_row hs hU hrow'
      rcases hcases k with heq | ⟨_, -, -, -, hnone⟩
      · exact (h.tops k row (heq ▸ hrow)).greatest X hX row' hXrow
      · rw [hnone] at hrow
        cases hrow
    · rw [← h.reads k]
      rcases hcases k with heq | ⟨row, hhit, -, hgone, hnone⟩
      · rw [heq]
      · rw [hnone, hhit]
        exact (if_pos (hm.tombstone row hgone)).symm
  · exfalso
    have hok : ∃ rs, (e.publishCompaction ids (out.map (·.info))).2 = .ok rs := by
      rw [Engine.publishCompaction, Engine.publishCompactionAt, Engine.saveAt, if_pos hdumps]
      exact ⟨_, rfl⟩
    obtain ⟨rs, hok⟩ := hok
    rw [hpub] at hok
    cases hok

end

/-! ## Where the threads stand -/

/-- What the output of a job is to hold. -/
def Purpose.Sound (e : Engine) (D : List LiveTable) (mem : Memtable) : Purpose → Prop
  | .flush => e.immutables.getLast? = some mem
  | .compaction ids => ∃ (front inputs back : List LiveTable) (gone : MemEntry → Bool),
      Selects D ids front inputs back ∧
      (∀ k, mem.map.find? k = (tableHit k inputs).filter (fun row => !gone row)) ∧
      ∀ row, gone row = true → row.tombstone = true ∧
        ∀ T ∈ front ++ back, row.seqno < T.info.minSeqno

def Creator.Sound (e : Engine) (D : List LiveTable) : Creator → Prop
  | .chosen live ids => live = e.manifest.tables ∧
      ∃ front inputs back, Selects D ids front inputs back
  | .merged ids final => Purpose.Sound e D final (.compaction ids)
  | .named job mem id => id = e.manifest.nextSstId ∧ job.Sound e D mem
  | .temp job mem r => job.Sound e D mem ∧ ∃ file,
      Sst.writeSstable e.manifest.nextSstId mem (e.config.sst mem.entries) = .ok (r, file)
  | .placed .flush added => ∃ T target, added = some T.info ∧ Adds e T ∧
      T.rows = target.map ∧ e.immutables.getLast? = some target
  | .placed (.compaction ids) added => ∃ front inputs back gone out,
      Selects D ids front inputs back ∧ Merges (front ++ back) inputs gone out ∧
      out.map LiveTable.info = added ∧ ∀ T ∈ out, Adds e T
  | .covered n | .removing n _ => n = e.manifest.maxSeqno
  | .unlinking r _ => ∀ t ∈ e.version.tables, t.id ≠ r.id
  | .idle | .published | .deleting _ => True

/-- The log as the writer left it, while segments of it are removed. -/
def Creator.Shows (l w : Wal Record) : Creator → Prop
  | .removing n ids => ∃ k, w = l.removeFirst n k ∧ ids = l.dir.keys.drop k
  | _ => w = l

/-- What the writer has done to the log, when `A` was applied and `rest` is in memtables, its
end `q` in the active one. -/
def Writer.Sound (l : Wal Record) (A rest q : List Record) : Writer → Prop
  | .numbered r => Keeps l A rest ∧ r.seqno = l.lastSeqno + 1
  | .written r => ∃ l₀, Keeps l₀ A rest ∧ r.seqno = l₀.lastSeqno + 1 ∧ l = WalLog.writeRecord r l₀
  | .logged r => Keeps l (A ++ [r]) (rest ++ [r])
  | .applied r => Keeps l A rest ∧ r ∈ q
  | .idle | .stalled .. | .admitted .. => Keeps l A rest

section
variable {w : Writer} {l : Wal Record} {A rest q : List Record}

theorem Writer.Sound.ascending (h : w.Sound l A rest q) : Ascending A := by
  cases w with
  | numbered r => exact h.1.ascending
  | written r =>
    obtain ⟨l₀, hkeeps, -⟩ := h
    exact hkeeps.ascending
  | logged r => exact (List.pairwise_append.mp (Keeps.ascending h)).1
  | applied r => exact h.1.ascending
  | idle | stalled del key value | admitted del key value => exact Keeps.ascending h

theorem Writer.Sound.shrink (h : w.Sound l A rest q) {rest' : List Record}
    (hrest : rest' <:+ rest) : w.Sound l A rest' q := by
  cases w with
  | numbered r => exact ⟨h.1.shrink hrest, h.2⟩
  | written r =>
    obtain ⟨l₀, hkeeps, hr⟩ := h
    exact ⟨l₀, hkeeps.shrink hrest, hr⟩
  | logged r =>
    exact Keeps.shrink h ((List.suffix_append_inj_of_length_eq rfl).mpr ⟨hrest, rfl⟩)
  | applied r => exact ⟨h.1.shrink hrest, h.2⟩
  | idle | stalled del key value | admitted del key value => exact Keeps.shrink h hrest

end

/-- The mutation of a write under way is one that may come. -/
def Writer.Brings (ok : Bytes → Bytes → Prop) : Writer → Prop
  | .idle => True
  | .stalled _ key value | .admitted _ key value => ok key value
  | .numbered r | .written r | .logged r | .applied r => ok r.key r.value

/-- The mutation that is applied but not acknowledged. -/
def Writer.unacked : Writer → List Record
  | .applied r => [r]
  | _ => []

structure Threads.Sound (config : Config) (ok : Bytes → Bytes → Prop) (s : Threads)
    (B : List Record) (ps : List (List Record)) (q : List Record) (D : List LiveTable)
    (l : Wal Record) : Prop where
  settings : s.engine.config = config
  stored : Stored s.engine s.applied B ps q D
  writer : s.writer.Sound l s.applied (ps.flatten ++ q) q
  shows : s.creator.Shows l s.engine.wal
  creator : s.creator.Sound s.engine D
  mutex : s.inAppend = true → s.inRemoval = false
  brings : s.writer.Brings ok
  keys : ∀ r ∈ s.applied, ok r.key r.value
  acked : s.applied = s.acked ++ s.writer.unacked

end LsmKv
