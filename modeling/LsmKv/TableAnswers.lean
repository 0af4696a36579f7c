import LsmKv.EngineCompaction
import LsmKv.Replay

/-!
# What tables answer across restarts

Records that stay in the log are replayed and flushed again, so that tables overlap. Lookups
still find the last write of a key, as long as of the tables that hold the key those with the
greatest `max_seqno` hold its newest row, and no row the log or a memtable may bring back is
newer than what the tables have forgotten.
-/

namespace LsmKv
open OrderedMap

/-! ## The last record of a key -/

def lastRecord (k : Bytes) (rs : List Record) : Option Record :=
  rs.reverse.find? (fun r => r.key = k)

theorem lastRecord_append (k : Bytes) (rs ts : List Record) :
    lastRecord k (rs ++ ts) = (lastRecord k ts).or (lastRecord k rs) := by
  rw [lastRecord, List.reverse_append, List.find?_append]
  rfl

theorem mem_of_lastRecord {k : Bytes} {rs : List Record} {r : Record}
    (h : lastRecord k rs = some r) : r ∈ rs ∧ r.key = k :=
  ⟨List.mem_reverse.mp (List.mem_of_find?_eq_some h), by simpa using List.find?_some h⟩

theorem lastRecord_eq_none {k : Bytes} {rs : List Record} :
    lastRecord k rs = none ↔ ∀ r ∈ rs, r.key ≠ k := by
  rw [lastRecord, List.find?_eq_none]
  simp

theorem exists_lastRecord {k : Bytes} {rs : List Record} {r : Record} (hr : r ∈ rs)
    (hk : r.key = k) : ∃ z, lastRecord k rs = some z := by
  rcases h : lastRecord k rs with _ | z
  · exact absurd hk (lastRecord_eq_none.mp h r hr)
  · exact ⟨z, rfl⟩

theorem lastRecord_snoc (k : Bytes) (rs : List Record) (r : Record) :
    lastRecord k (rs ++ [r]) = if r.key = k then some r else lastRecord k rs := by
  rw [lastRecord_append]
  by_cases hk : r.key = k <;> simp [lastRecord, hk]

/-- The last record of a key that is in a suffix is the last in the whole. -/
theorem lastRecord_of_suffix {k : Bytes} {rs ts : List Record} (h : ts <:+ rs) {r : Record}
    (hr : lastRecord k ts = some r) : lastRecord k rs = some r := by
  obtain ⟨s, rfl⟩ := h
  rw [lastRecord_append, hr]
  rfl

/-- Records with ascending numbers. -/
abbrev Ascending (rs : List Record) : Prop := rs.Pairwise (fun a b => a.seqno < b.seqno)

theorem Ascending.eq_of_seqno {rs : List Record} (h : Ascending rs) {a b : Record} (ha : a ∈ rs)
    (hb : b ∈ rs) (hab : a.seqno = b.seqno) : a = b := by
  have hnodup : (rs.map Record.seqno).Nodup := List.pairwise_map.mpr (h.imp ne_of_lt)
  exact List.inj_on_of_nodup_map hnodup ha hb hab

theorem Ascending.le_lastRecord {rs : List Record} (h : Ascending rs) {k : Bytes} {z : Record}
    (hz : lastRecord k rs = some z) {r : Record} (hr : r ∈ rs) (hk : r.key = k) :
    r.seqno ≤ z.seqno := by
  induction rs using List.reverseRecOn with
  | nil => cases hr
  | append_singleton rs a ih =>
    obtain ⟨hrs, -, hlt⟩ := List.pairwise_append.mp h
    rw [lastRecord_snoc] at hz
    split at hz
    · obtain rfl := Option.some.inj hz
      rcases List.mem_append.mp hr with hr | hr
      · exact (hlt r hr a (by simp)).le
      · exact (List.mem_singleton.mp hr ▸ le_rfl)
    · rename_i hne
      rcases List.mem_append.mp hr with hr | hr
      · exact ih hrs hz hr
      · obtain rfl := List.mem_singleton.mp hr
        exact absurd hk hne

/-- A record between two of a block is in the block. -/
theorem Ascending.mem_block {s p q : List Record} (h : Ascending (s ++ (p ++ q))) {a b r : Record}
    (ha : a ∈ p) (hb : b ∈ p) (hr : r ∈ s ++ (p ++ q)) (har : a.seqno ≤ r.seqno)
    (hrb : r.seqno ≤ b.seqno) : r ∈ p := by
  obtain ⟨-, hpq, hs⟩ := List.pairwise_append.mp h
  obtain ⟨-, -, hlt⟩ := List.pairwise_append.mp hpq
  rcases List.mem_append.mp hr with hr | hr
  · have := hs r hr a (List.mem_append_left _ ha)
    omega
  · rcases List.mem_append.mp hr with hr | hr
    · exact hr
    · have := hlt b hb r hr
      omega

/-! ## Rows in overlapping tables -/

theorem exists_maximal {α : Type*} {l : List α} (f : α → ℕ) {a : α} (ha : a ∈ l) :
    ∃ b ∈ l, ∀ c ∈ l, f c ≤ f b := by
  induction l generalizing a with
  | nil => cases ha
  | cons x l ih =>
    rcases l with _ | ⟨y, l⟩
    · exact ⟨x, List.mem_cons_self, by simp⟩
    · obtain ⟨b, hb, hmax⟩ := ih (List.mem_cons_self (a := y))
      rcases le_total (f x) (f b) with hle | hle
      · exact ⟨b, List.mem_cons_of_mem _ hb, List.forall_mem_cons.mpr ⟨hle, hmax⟩⟩
      · exact ⟨x, List.mem_cons_self, List.forall_mem_cons.mpr
          ⟨le_rfl, fun c hc => (hmax c hc).trans hle⟩⟩

/-- A row of `k` that no other table outdoes. -/
structure TopRow (ts : List LiveTable) (k : Bytes) (e : MemEntry) : Prop where
  held : ∃ T ∈ ts, T.rows.find? k = some e
  greatest : ∀ U ∈ ts, ∀ e', U.rows.find? k = some e' → e'.seqno ≤ e.seqno

/-- Of the tables that hold `k`, one that reaches highest. -/
structure TopHolder (ts : List LiveTable) (k : Bytes) (T : LiveTable) (e : MemEntry) : Prop where
  mem : T ∈ ts
  holds : T.rows.find? k = some e
  greatest : ∀ U ∈ ts, ∀ e', U.rows.find? k = some e' → U.info.maxSeqno ≤ T.info.maxSeqno

theorem exists_topHolder {ts : List LiveTable} {k : Bytes} {T : LiveTable} {e : MemEntry}
    (hT : T ∈ ts) (he : T.rows.find? k = some e) : ∃ T' e', TopHolder ts k T' e' := by
  have hmem : T ∈ ts.filter (fun U => (U.rows.find? k).isSome) :=
    List.mem_filter.mpr ⟨hT, by rw [he]; rfl⟩
  obtain ⟨T', hT', hmax⟩ := exists_maximal (fun U : LiveTable => U.info.maxSeqno) hmem
  obtain ⟨hT', hsome⟩ := List.mem_filter.mp hT'
  obtain ⟨e', he'⟩ := Option.isSome_iff_exists.mp hsome
  exact ⟨T', e', hT', he', fun U hU e hUe => hmax U (List.mem_filter.mpr ⟨hU, by rw [hUe]; rfl⟩)⟩

/-- In descending order the first hit is in a table that reaches highest. -/
theorem topHolder_of_tableHit {ts : List LiveTable}
    (h : ts.Pairwise (fun T U => U.info.maxSeqno ≤ T.info.maxSeqno)) {k : Bytes} {e : MemEntry}
    (he : tableHit k ts = some e) : ∃ T, TopHolder ts k T e := by
  induction ts with
  | nil => cases he
  | cons U ts ih =>
    obtain ⟨hU, hts⟩ := List.pairwise_cons.mp h
    rw [tableHit_cons] at he
    rcases hfind : U.rows.find? k with _ | w
    · rw [hfind, Option.none_or] at he
      obtain ⟨T, hT⟩ := ih hts he
      refine ⟨T, List.mem_cons_of_mem _ hT.mem, hT.holds, fun V hV e' he' => ?_⟩
      rcases List.mem_cons.mp hV with rfl | hV
      · rw [hfind] at he'
        cases he'
      · exact hT.greatest V hV e' he'
    · rw [hfind, Option.some_or] at he
      obtain rfl := Option.some.inj he
      refine ⟨U, List.mem_cons_self, hfind, fun V hV _ _ => ?_⟩
      rcases List.mem_cons.mp hV with rfl | hV
      · exact le_rfl
      · exact hU V hV

/-- Over what was written, `V` by key: the records `S` of the session and those replayed before
it, the log `W`, the records `Q` of the memtables, and what a flush may still bring back, `live`.
Everything up to `w` that is not in the log or not in memory is in these tables. -/
structure TableAnswers (V : Bytes → Option Bytes) (w : ℕ) (S W Q : List Record)
    (live : Record → Prop) (ts : List LiveTable) : Prop where
  le : ∀ T ∈ ts, T.info.maxSeqno ≤ w
  low : ∀ r ∈ S, r ∉ W ∨ r ∉ Q → r.seqno ≤ w
  top : ∀ k T e, TopHolder ts k T e → TopRow ts k e
  within : ∀ T ∈ ts, ∀ k e, T.rows.find? k = some e → ∀ r ∈ S, r.seqno ≤ e.seqno →
    ∃ z ∈ S, z.key = k ∧ z.row = e
  settled : ∀ r, live r → r.seqno ≤ w →
    (∃ T ∈ ts, ∃ e, T.rows.find? r.key = some e ∧ r.seqno ≤ e.seqno) ∨
    (r.row.result = none ∧ (∀ z, live z → z.key = r.key → r.seqno ≤ z.seqno) ∧
      ∀ T ∈ ts, T.rows.find? r.key = none)
  newest : ∀ k, (∀ r ∈ W, r.key ≠ k) → ∀ e, TopRow ts k e → e.result = V k
  absent : ∀ k, (∀ r ∈ W, r.key ≠ k) → (∀ T ∈ ts, T.rows.find? k = none) → V k = none

/-- What a log and memtables hold of what was written. -/
structure Remembered (V : Bytes → Option Bytes) (S W Q : List Record) (live : Record → Prop) :
    Prop where
  ascending : Ascending S
  wal : W <:+ S
  mem : Q <:+ S
  known : ∀ r, live r → r ∈ S
  logged : ∀ r ∈ W, live r
  last : ∀ k r, lastRecord k S = some r → r.row.result = V k

section
variable {V : Bytes → Option Bytes} {w : ℕ} {S W Q : List Record} {live : Record → Prop}
  {ts : List LiveTable}

theorem TableAnswers.exists_topRow (h : TableAnswers V w S W Q live ts) {k : Bytes} {T : LiveTable}
    {e : MemEntry} (hT : T ∈ ts) (he : T.rows.find? k = some e) :
    ∃ T' e', TopHolder ts k T' e' ∧ TopRow ts k e' ∧ e.seqno ≤ e'.seqno := by
  obtain ⟨T', e', htop⟩ := exists_topHolder hT he
  have hrow := h.top k T' e' htop
  exact ⟨T', e', htop, hrow, hrow.greatest T hT e he⟩

/-- A row at or above the last record of its key is that record's. -/
theorem TableAnswers.eq_last (h : TableAnswers V w S W Q live ts) (hw : Remembered V S W Q live)
    {k : Bytes} {z : Record} (hz : lastRecord k S = some z) {T : LiveTable} (hT : T ∈ ts)
    {e : MemEntry} (he : T.rows.find? k = some e) (hle : z.seqno ≤ e.seqno) : e = z.row := by
  obtain ⟨hzS, -⟩ := mem_of_lastRecord hz
  obtain ⟨z', hz', hk', rfl⟩ := h.within T hT k e he z hzS hle
  rw [hw.ascending.eq_of_seqno hzS hz' (le_antisymm hle (hw.ascending.le_lastRecord hz hz' hk'))]

/-- Away from the memtables, tables in descending order find the last write. -/
theorem TableAnswers.tableHit (h : TableAnswers V w S W Q live ts) (hw : Remembered V S W Q live)
    (hsorted : ts.Pairwise (fun T U => U.info.maxSeqno ≤ T.info.maxSeqno)) {k : Bytes}
    (hk : ∀ r ∈ Q, r.key ≠ k) : (tableHit k ts).bind MemEntry.result = V k := by
  by_cases hlog : ∀ r ∈ W, r.key ≠ k
  · rcases hhit : LsmKv.tableHit k ts with _ | e
    · exact (h.absent k hlog (tableHit_eq_none.mp hhit)).symm
    · obtain ⟨T, hT⟩ := topHolder_of_tableHit hsorted hhit
      exact h.newest k hlog e (h.top k T e hT)
  · push Not at hlog
    obtain ⟨r, hr, hrk⟩ := hlog
    obtain ⟨z, hzW⟩ := exists_lastRecord hr hrk
    have hz := lastRecord_of_suffix hw.wal hzW
    obtain ⟨hzmem, rfl⟩ := mem_of_lastRecord hzW
    have hzS := hw.wal.subset hzmem
    have hlow := h.low z hzS (.inr (fun hzQ => hk z hzQ rfl))
    rw [← hw.last _ z hz]
    rcases h.settled z (hw.logged z hzmem) hlow with ⟨T, hT, e, he, hle⟩ | ⟨hdel, -, hnone⟩
    · rcases hhit : LsmKv.tableHit z.key ts with _ | e'
      · rw [tableHit_eq_none.mp hhit T hT] at he
        cases he
      · obtain ⟨T', hT'⟩ := topHolder_of_tableHit hsorted hhit
        have htop := h.top _ T' e' hT'
        rw [h.eq_last hw hz hT'.mem hT'.holds (hle.trans (htop.greatest T hT e he))]
        rfl
    · rw [tableHit_eq_none.mpr hnone, hdel]
      rfl

/-! ## A flushed memtable -/

/-- The table of a block of records from the front of the memtables. -/
structure TableOf (p : List Record) (T : LiveTable) : Prop where
  nonempty : p ≠ []
  rows : ∀ k, T.rows.find? k = (lastRecord k p).map Record.row
  top : ∃ z ∈ p, z.seqno = T.info.maxSeqno

theorem TableOf.exists_record {p : List Record} {T : LiveTable} (h : TableOf p T) {k : Bytes}
    {e : MemEntry} (he : T.rows.find? k = some e) : ∃ z, lastRecord k p = some z ∧ z.row = e := by
  rw [h.rows, Option.map_eq_some_iff] at he
  exact he

theorem TableOf.le_max {p : List Record} {T : LiveTable} (h : TableOf p T) {r : Record}
    (hr : r ∈ p) (hp : Ascending p) : r.seqno ≤ T.info.maxSeqno := by
  obtain ⟨z, hz⟩ := exists_lastRecord hr rfl
  have hrow : T.rows.find? r.key = some z.row := by rw [h.rows, hz]; rfl
  exact (hp.le_lastRecord hz hr rfl).trans (LiveTable.seqno_le hrow)

variable {p Q' : List Record} {T : LiveTable}

/-- Between its rows a flushed table is complete. -/
theorem TableOf.mem_of_le (hT : TableOf p T) (hw : Remembered V S W (p ++ Q') live) {a r : Record}
    (ha : a ∈ p) (hr : r ∈ S) (har : a.seqno ≤ r.seqno) (hmax : r.seqno ≤ T.info.maxSeqno) :
    r ∈ p := by
  obtain ⟨s, rfl⟩ := hw.mem
  obtain ⟨z, hz, hmaxz⟩ := hT.top
  exact hw.ascending.mem_block ha hz hr har (hmax.trans hmaxz.ge)

theorem Remembered.ascending_block (hw : Remembered V S W (p ++ Q') live) : Ascending p := by
  obtain ⟨s, rfl⟩ := hw.mem
  exact (List.pairwise_append.mp (List.pairwise_append.mp hw.ascending).2.1).1

/-- A row of other tables that is newer than the flushed one is beyond the flushed table. -/
theorem TableAnswers.lt_of_newer (h : TableAnswers V w S W (p ++ Q') live ts)
    (hw : Remembered V S W (p ++ Q') live) (hT : TableOf p T) {k : Bytes} {z : Record}
    (hz : lastRecord k p = some z) {U : LiveTable} (hU : U ∈ ts) {e : MemEntry}
    (he : U.rows.find? k = some e) (hlt : z.seqno < e.seqno) : T.info.maxSeqno < e.seqno := by
  obtain ⟨hzp, -⟩ := mem_of_lastRecord hz
  have hzS : z ∈ S := hw.mem.subset (List.mem_append_left _ hzp)
  obtain ⟨z', hz', hk', rfl⟩ := h.within U hU k e he z hzS hlt.le
  by_contra hle
  have hmem := hT.mem_of_le hw hzp hz' hlt.le (not_lt.mp hle)
  have := hw.ascending_block.le_lastRecord hz hmem hk'
  rw [Record.row_seqno] at hlt
  omega

theorem TableAnswers.top_add (h : TableAnswers V w S W (p ++ Q') live ts)
    (hw : Remembered V S W (p ++ Q') live) (hT : TableOf p T)
    (hlive : ∀ k z, lastRecord k p = some z → live z) {k : Bytes} {U : LiveTable} {e : MemEntry}
    (hU : TopHolder (T :: ts) k U e) : TopRow (T :: ts) k e := by
  refine ⟨⟨U, hU.mem, hU.holds⟩, ?_⟩
  have hold : ∀ X ∈ ts, ∀ e', X.rows.find? k = some e' → e'.seqno ≤ e.seqno := by
    intro X hX e' he'
    rcases List.mem_cons.mp hU.mem with rfl | hUts
    · by_contra hlt
      obtain ⟨z, hz, rfl⟩ := hT.exists_record hU.holds
      have := h.lt_of_newer hw hT hz hX he' (not_le.mp hlt)
      have := hU.greatest X (List.mem_cons_of_mem _ hX) e' he'
      have := LiveTable.seqno_le he'
      omega
    · have hholder : TopHolder ts k U e := ⟨hUts, hU.holds, fun Y hY e'' hY' =>
        hU.greatest Y (List.mem_cons_of_mem _ hY) e'' hY'⟩
      exact (h.top k U e hholder).greatest X hX e' he'
  refine List.forall_mem_cons.mpr ⟨fun e' he' => ?_, hold⟩
  rcases List.mem_cons.mp hU.mem with rfl | hUts
  · rw [hU.holds] at he'
    rw [Option.some.inj he']
  -- the flushed row is settled, as some table of the others reaches as high
  obtain ⟨z, hz, rfl⟩ := hT.exists_record he'
  obtain ⟨hzp, hzk⟩ := mem_of_lastRecord hz
  have hreach := hU.greatest T List.mem_cons_self _ he'
  have hzw : z.seqno ≤ w :=
    ((LiveTable.seqno_le he').trans hreach).trans (h.le U hUts)
  rcases h.settled z (hlive k z hz) hzw with ⟨X, hX, e', he', hle⟩ | ⟨-, -, hnone⟩
  · exact hle.trans (hold X hX e' (hzk ▸ he'))
  · have := hnone U hUts
    rw [hzk, hU.holds] at this
    cases this

theorem TableAnswers.add (h : TableAnswers V w S W (p ++ Q') live ts)
    (hw : Remembered V S W (p ++ Q') live) (hT : TableOf p T)
    (hlive : ∀ k z, lastRecord k p = some z → live z) :
    TableAnswers V (max w T.info.maxSeqno) S W (p ++ Q') live (T :: ts) := by
  have hblock := hw.ascending_block
  have hpS : ∀ r ∈ p, r ∈ S := fun r hr => hw.mem.subset (List.mem_append_left _ hr)
  refine ⟨?_, fun r hr hout => (h.low r hr hout).trans (le_max_left _ _),
    fun k U e hU => h.top_add hw hT hlive hU, ?_, ?_, ?_, ?_⟩
  · exact List.forall_mem_cons.mpr ⟨le_max_right _ _,
      fun U hU => (h.le U hU).trans (le_max_left _ _)⟩
  · refine List.forall_mem_cons.mpr ⟨fun k e he r _ _ => ?_, h.within⟩
    obtain ⟨z, hz, rfl⟩ := hT.exists_record he
    obtain ⟨hzp, hzk⟩ := mem_of_lastRecord hz
    exact ⟨z, hpS z hzp, hzk, rfl⟩
  · intro r hr hle
    by_cases hrw : r.seqno ≤ w
    · rcases h.settled r hr hrw with ⟨U, hU, e, he, hre⟩ | ⟨hdel, hall, hnone⟩
      · exact .inl ⟨U, List.mem_cons_of_mem _ hU, e, he, hre⟩
      · rcases hfind : T.rows.find? r.key with _ | e
        · exact .inr ⟨hdel, hall, List.forall_mem_cons.mpr ⟨hfind, hnone⟩⟩
        · obtain ⟨z, hz, rfl⟩ := hT.exists_record hfind
          obtain ⟨-, hzk⟩ := mem_of_lastRecord hz
          exact .inl ⟨T, List.mem_cons_self, _, hfind, hall z (hlive _ z hz) hzk⟩
    · -- a record above the old watermark is in memory, and so in the block
      have hrS := hw.known r hr
      have hrQ : r ∈ p ++ Q' := by
        by_contra hnot
        exact hrw (h.low r hrS (.inr hnot))
      have hrT : r.seqno ≤ T.info.maxSeqno := by omega
      have hrp : r ∈ p := by
        rcases List.mem_append.mp hrQ with hrp | hrQ
        · exact hrp
        · obtain ⟨z, hz, hmax⟩ := hT.top
          obtain ⟨s, rfl⟩ := hw.mem
          have hblocks := (List.pairwise_append.mp hw.ascending).2.1
          have := (List.pairwise_append.mp hblocks).2.2 z hz r hrQ
          omega
      obtain ⟨z, hz⟩ := exists_lastRecord hrp rfl
      exact .inl ⟨T, List.mem_cons_self, z.row, by rw [hT.rows, hz]; rfl,
        hblock.le_lastRecord hz hrp rfl⟩
  · intro k hk e htop
    rcases hfind : T.rows.find? k with _ | e'
    · refine h.newest k hk e ⟨?_, fun U hU => htop.greatest U (List.mem_cons_of_mem _ hU)⟩
      obtain ⟨U, hU, he⟩ := htop.held
      rcases List.mem_cons.mp hU with rfl | hU
      · rw [hfind] at he
        cases he
      · exact ⟨U, hU, he⟩
    · obtain ⟨z, hz, rfl⟩ := hT.exists_record hfind
      obtain ⟨hzp, hzk⟩ := mem_of_lastRecord hz
      have hzw : z.seqno ≤ w := h.low z (hpS z hzp) (.inl (fun hmem => hk z hmem hzk))
      rcases h.settled z (hlive k z hz) hzw with ⟨U, hU, e₁, he₁, hle⟩ | ⟨hdel, -, hnone⟩
      · obtain ⟨U', e₂, hU', hrow, hge⟩ := h.exists_topRow hU (hzk ▸ he₁)
        have hV := h.newest k hk e₂ hrow
        obtain ⟨z', hz', hk', rfl⟩ := h.within U' hU'.mem k e₂ hU'.holds z (hpS z hzp)
          (hle.trans hge)
        obtain ⟨X, hX, he⟩ := htop.held
        rcases List.mem_cons.mp hX with rfl | hX
        · obtain rfl := Option.some.inj (hfind.symm.trans he)
          have := htop.greatest U' (List.mem_cons_of_mem _ hU'.mem) _ hU'.holds
          rw [hw.ascending.eq_of_seqno (hpS z hzp) hz' (le_antisymm (hle.trans hge) this)]
          exact hV
        · exact h.newest k hk e ⟨⟨X, hX, he⟩, fun Y hY => htop.greatest Y
            (List.mem_cons_of_mem _ hY)⟩
      · obtain ⟨X, hX, he⟩ := htop.held
        rcases List.mem_cons.mp hX with rfl | hX
        · obtain rfl := Option.some.inj (hfind.symm.trans he)
          rw [h.absent k hk (hzk ▸ hnone), hdel]
        · rw [← hzk, hnone X hX] at he
          cases he
  · intro k hk hnone
    exact h.absent k hk (fun U hU => hnone U (List.mem_cons_of_mem _ hU))

/-! ## Forgetting what is covered -/

/-- Records at or below the watermark may leave the log or the memtables. -/
theorem TableAnswers.shrink (h : TableAnswers V w S W Q live ts) (hw : Remembered V S W Q live)
    {W' Q' : List Record} {live' : Record → Prop} (hlive : ∀ r, live' r → live r)
    (hgoneW : ∀ r ∈ W, r ∉ W' → r.seqno ≤ w)
    (hgoneQ : ∀ r ∈ Q, r ∉ Q' → r.seqno ≤ w) : TableAnswers V w S W' Q' live' ts := by
  refine ⟨h.le, fun r hr hout => ?_, h.top, h.within, fun r hr hle => ?_, ?_, ?_⟩
  · by_cases hboth : r ∈ W ∧ r ∈ Q
    · exact hout.elim (hgoneW r hboth.1) (hgoneQ r hboth.2)
    · exact h.low r hr (by tauto)
  · exact (h.settled r (hlive r hr) hle).imp_right (fun ⟨hdel, hall, hnone⟩ =>
      ⟨hdel, fun z hz => hall z (hlive z hz), hnone⟩)
  all_goals
    intro k hk
    have hcase : (∀ r ∈ W, r.key ≠ k) ∨ ∃ z, lastRecord k S = some z ∧ live z ∧ z.seqno ≤ w := by
      by_cases hlog : ∀ r ∈ W, r.key ≠ k
      · exact .inl hlog
      · push Not at hlog
        obtain ⟨r, hr, hrk⟩ := hlog
        obtain ⟨z, hz⟩ := exists_lastRecord hr hrk
        obtain ⟨hzW, hzk⟩ := mem_of_lastRecord hz
        exact .inr ⟨z, lastRecord_of_suffix hw.wal hz, hw.logged z hzW,
          hgoneW z hzW (fun hmem => hk z hmem hzk)⟩
  · intro e htop
    rcases hcase with hlog | ⟨z, hz, hzlive, hzw⟩
    · exact h.newest k hlog e htop
    obtain ⟨-, rfl⟩ := mem_of_lastRecord hz
    obtain ⟨X, hX, he⟩ := htop.held
    rcases h.settled z hzlive hzw with ⟨U, hU, e', he', hle⟩ | ⟨-, -, hnone⟩
    · rw [h.eq_last hw hz hX he (hle.trans (htop.greatest U hU e' he'))]
      exact hw.last _ z hz
    · rw [hnone X hX] at he
      cases he
  · intro hnone
    rcases hcase with hlog | ⟨z, hz, hzlive, hzw⟩
    · exact h.absent k hlog hnone
    obtain ⟨-, rfl⟩ := mem_of_lastRecord hz
    rw [← hw.last _ z hz]
    rcases h.settled z hzlive hzw with ⟨U, hU, e', he', hle⟩ | ⟨hdel, -, -⟩
    · rw [hnone U hU] at he'
      cases he'
    · exact hdel

/-! ## A write -/

/-- A new record is above all tables. -/
theorem TableAnswers.write (h : TableAnswers V w S W Q live ts) {r : Record} (hr : w < r.seqno)
    {live' : Record → Prop} (hlive : ∀ z, live' z → live z ∨ z = r) :
    TableAnswers (fun k => if r.key = k then r.row.result else V k) w (S ++ [r]) (W ++ [r])
      (Q ++ [r]) live' ts := by
  refine ⟨h.le, fun z hz hout => ?_, h.top, fun T hT k e he z hz hle => ?_, fun z hz hle => ?_,
    fun k hk e htop => ?_, fun k hk hnone => ?_⟩
  · rcases List.mem_append.mp hz with hz | hz
    · exact h.low z hz (hout.imp (fun hW hmem => hW (List.mem_append_left _ hmem))
        (fun hQ hmem => hQ (List.mem_append_left _ hmem)))
    · exact (hout.elim (fun hW => hW (List.mem_append_right _ hz))
        (fun hQ => hQ (List.mem_append_right _ hz))).elim
  · rcases List.mem_append.mp hz with hz | hz
    · obtain ⟨a, ha, hak, hrow⟩ := h.within T hT k e he z hz hle
      exact ⟨a, List.mem_append_left _ ha, hak, hrow⟩
    · obtain rfl := List.mem_singleton.mp hz
      have := (LiveTable.seqno_le he).trans (h.le T hT)
      omega
  · rcases hlive z hz with hz | rfl
    · refine (h.settled z hz hle).imp_right (fun ⟨hdel, hall, hnone⟩ => ⟨hdel, fun a ha hak => ?_,
        hnone⟩)
      rcases hlive a ha with ha | rfl
      · exact hall a ha hak
      · omega
    · omega
  · have hne : r.key ≠ k := hk r (by simp)
    rw [if_neg hne]
    exact h.newest k (fun z hz => hk z (List.mem_append_left _ hz)) e htop
  · have hne : r.key ≠ k := hk r (by simp)
    rw [if_neg hne]
    exact h.absent k (fun z hz => hk z (List.mem_append_left _ hz)) hnone

theorem Remembered.write (h : Remembered V S W Q live) {r : Record}
    (hr : ∀ a ∈ S, a.seqno < r.seqno) {live' : Record → Prop}
    (hlive : ∀ z, live' z → live z ∨ z = r) (hlogged : ∀ z ∈ W ++ [r], live' z) :
    Remembered (fun k => if r.key = k then r.row.result else V k) (S ++ [r]) (W ++ [r]) (Q ++ [r])
      live' := by
  refine ⟨List.pairwise_append.mpr ⟨h.ascending, List.pairwise_singleton _ _, by simpa using hr⟩,
    (List.suffix_append_inj_of_length_eq rfl).mpr ⟨h.wal, rfl⟩, ?_, fun z hz => ?_, hlogged,
    fun k z hz => ?_⟩
  · exact (List.suffix_append_inj_of_length_eq rfl).mpr ⟨h.mem, rfl⟩
  · rcases hlive z hz with hz | rfl
    · exact List.mem_append_left _ (h.known z hz)
    · simp
  · rw [lastRecord_snoc] at hz
    split at hz
    · rename_i hk
      rw [if_pos hk, Option.some.inj hz]
    · rename_i hk
      rw [if_neg hk]
      exact h.last k z hz

/-! ## A compaction -/

/-- In strictly descending order the first hit is the only one that reaches highest. -/
theorem TopHolder.tableHit {k : Bytes} {U : LiveTable} {e : MemEntry} (hn : Newest ts)
    (h : TopHolder ts k U e) : tableHit k ts = some e := by
  rcases hhit : LsmKv.tableHit k ts with _ | e'
  · have := tableHit_eq_none.mp hhit U h.mem
    rw [h.holds] at this
    cases this
  · have hpair := newest_iff.mp hn
    obtain ⟨X, hX⟩ := topHolder_of_tableHit (hpair.imp le_of_lt) hhit
    have hnodup : (ts.map (fun T => T.info.maxSeqno)).Nodup :=
      List.pairwise_map.mpr (hpair.imp ne_of_gt)
    have hXU : X = U := List.inj_on_of_nodup_map hnodup hX.mem h.mem
      (le_antisymm (h.greatest X hX.mem _ hX.holds) (hX.greatest U h.mem _ h.holds))
    subst hXU
    rw [← h.holds, hX.holds]

/-- The order of the tables does not matter. -/
theorem TableAnswers.of_perm (h : TableAnswers V w S W Q live ts) {ts' : List LiveTable}
    (hp : ts'.Perm ts) : TableAnswers V w S W Q live ts' := by
  have hmem : ∀ U, U ∈ ts' ↔ U ∈ ts := fun U => hp.mem_iff
  have hholder : ∀ k U e, TopHolder ts' k U e → TopHolder ts k U e := fun k U e hU =>
    ⟨(hmem U).mp hU.mem, hU.holds, fun X hX => hU.greatest X ((hmem X).mpr hX)⟩
  have hrow : ∀ k e, TopRow ts' k e ↔ TopRow ts k e := by
    intro k e
    constructor <;> rintro ⟨hheld, hgreatest⟩
    · exact ⟨by simpa only [hmem] using hheld, by simpa only [hmem] using hgreatest⟩
    · exact ⟨by simpa only [hmem] using hheld, by simpa only [hmem] using hgreatest⟩
  refine ⟨by simpa only [hmem] using h.le, h.low, fun k U e hU => ?_,
    by simpa only [hmem] using h.within, by simpa only [hmem] using h.settled,
    fun k hk e he => h.newest k hk e ((hrow k e).mp he),
    fun k hk hnone => h.absent k hk (by simpa only [hmem] using hnone)⟩
  exact (hrow k e).mpr (h.top k U e (hholder k U e hU))

section
variable {M front inputs back : List LiveTable} {ids : List ℕ} {gone : MemEntry → Bool}
  {out : Option LiveTable}

/-- No row is new after a merge. -/
theorem Merges.exists_row (hs : Selects M ids front inputs back)
    (hm : Merges (front ++ back) inputs gone out) {U : LiveTable}
    (hU : U ∈ front ++ (out.toList ++ back)) {k : Bytes} {e : MemEntry}
    (he : U.rows.find? k = some e) : ∃ X ∈ M, X.rows.find? k = some e := by
  have hcases : U ∈ front ++ back ∨ U ∈ out := by
    simp only [List.mem_append, Option.mem_toList] at hU ⊢
    tauto
  rcases hcases with hU | hU
  · exact ⟨U, hs.mem.mpr (.inl hU), he⟩
  · obtain ⟨X, hX, hrow⟩ := exists_of_tableHit (hm.of_find? hU he)
    exact ⟨X, hs.mem.mpr (.inr hX), hrow⟩

/-- A merge leaves the first hit of a key, or drops the only rows the key has. -/
theorem Merges.tableHit_cases (hs : Selects M ids front inputs back)
    (hm : Merges (front ++ back) inputs gone out) {k : Bytes}
    (htop : ∀ e, tableHit k M = some e → TopRow M k e) :
    tableHit k (front ++ (out.toList ++ back)) = tableHit k M ∨
      ∃ e, tableHit k M = some e ∧ tableHit k inputs = some e ∧ gone e = true ∧
        tableHit k (front ++ (out.toList ++ back)) = none := by
  have hM : tableHit k M = (tableHit k front).or ((tableHit k inputs).or (tableHit k back)) := by
    rw [hs.split, tableHit_append, tableHit_append]
  rw [tableHit_append, tableHit_append, hm.rows k]
  rcases hfront : tableHit k front with _ | e
  · rcases hin : tableHit k inputs with _ | e
    · exact .inl (by rw [hM, hfront, hin]; rfl)
    · rcases hgone : gone e with _ | _
      · exact .inl (by simp [hM, hfront, hin, Option.filter_some, hgone])
      · have hhit : tableHit k M = some e := by rw [hM, hfront, hin]; rfl
        have hback : tableHit k back = none := by
          refine tableHit_eq_none.mpr (fun U hU => ?_)
          rcases hrow : U.rows.find? k with _ | e'
          · rfl
          · have hnew := hm.newer e hgone U (List.mem_append_right _ hU)
            have hle := (htop e hhit).greatest U
              (hs.mem.mpr (.inl (List.mem_append_right _ hU))) e' hrow
            have := LiveTable.le_seqno hrow
            omega
        exact .inr ⟨e, hhit, rfl, hgone, by simp [Option.filter_some, hgone, hback]⟩
  · exact .inl (by rw [hM, hfront]; rfl)

/-- A compaction of tables in strictly descending order, when what it drops has no older record
that may come back. -/
theorem TableAnswers.compact (h : TableAnswers V w S W Q live M) (hw : Remembered V S W Q live)
    (hn : Newest M) (hs : Selects M ids front inputs back)
    (hm : Merges (front ++ back) inputs gone out)
    (hdrop : ∀ k e, LsmKv.tableHit k inputs = some e → gone e = true → ∀ r, live r → r.key = k →
      e.seqno ≤ r.seqno) :
    TableAnswers V w S W Q live (front ++ (out.toList ++ back)) := by
  have hn' : Newest (front ++ (out.toList ++ back)) := hm.placed hs.nonempty (hs.split ▸ hn)
  have htopHit : ∀ {k e}, LsmKv.tableHit k M = some e → TopRow M k e := by
    intro k e he
    obtain ⟨X, hX⟩ := topHolder_of_tableHit ((newest_iff.mp hn).imp le_of_lt) he
    exact h.top k X e hX
  have hcases := fun k => hm.tableHit_cases hs (k := k) (fun _ he => htopHit he)
  have hkeep : ∀ {k e}, LsmKv.tableHit k (front ++ (out.toList ++ back)) = some e →
      LsmKv.tableHit k M = some e := by
    intro k e he
    rcases hcases k with heq | ⟨_, -, -, -, hnone⟩
    · exact heq ▸ he
    · rw [hnone] at he
      cases he
  have hlower : ∀ {k e}, TopRow M k e → ∀ U ∈ front ++ (out.toList ++ back), ∀ e',
      U.rows.find? k = some e' → e'.seqno ≤ e.seqno := by
    intro k e he U hU e' he'
    obtain ⟨X, hX, hrow⟩ := hm.exists_row hs hU he'
    exact he.greatest X hX e' hrow
  refine ⟨fun U hU => ?_, h.low, fun k U e hU => ?_, fun U hU k e he => ?_, fun r hr hle => ?_,
    fun k hk e htop => ?_, fun k hk hnone => ?_⟩
  · obtain ⟨k, e, hrow, hmax⟩ := U.exists_top
    obtain ⟨X, hX, hrow⟩ := hm.exists_row hs hU hrow
    exact hmax ▸ (LiveTable.seqno_le hrow).trans (h.le X hX)
  · exact ⟨⟨U, hU.mem, hU.holds⟩, hlower (htopHit (hkeep (hU.tableHit hn')))⟩
  · obtain ⟨X, hX, hrow⟩ := hm.exists_row hs hU he
    exact h.within X hX k e hrow
  · rcases h.settled r hr hle with ⟨X, hX, e, hrow, hre⟩ | ⟨hdel, hall, hnone⟩
    · rcases hhit : LsmKv.tableHit r.key M with _ | e₀
      · rw [tableHit_eq_none.mp hhit X hX] at hrow
        cases hrow
      have htop := htopHit hhit
      have hre₀ := hre.trans (htop.greatest X hX e hrow)
      rcases hcases r.key with heq | ⟨e₁, he₁, hin, hgone, hnone⟩
      · obtain ⟨U, hU, hfind⟩ := exists_of_tableHit (heq.trans hhit)
        exact .inl ⟨U, hU, e₀, hfind, hre₀⟩
      · obtain rfl := Option.some.inj (hhit.symm.trans he₁)
        have hrS := hw.known r hr
        obtain ⟨Y, hY, hYrow⟩ := htop.held
        obtain ⟨z, hz, hzk, rfl⟩ := h.within Y hY r.key _ hYrow r hrS hre₀
        have hzr : z = r := hw.ascending.eq_of_seqno hz hrS
          (le_antisymm (hdrop _ _ hin hgone r hr rfl) hre₀)
        subst hzr
        refine .inr ⟨?_, fun a ha hak => hdrop _ _ hin hgone a ha hak, tableHit_eq_none.mp hnone⟩
        exact if_pos (hm.tombstone _ hgone)
    · refine .inr ⟨hdel, hall, fun U hU => ?_⟩
      rcases hrow : U.rows.find? r.key with _ | e
      · rfl
      · obtain ⟨X, hX, hXrow⟩ := hm.exists_row hs hU hrow
        rw [hnone X hX] at hXrow
        cases hXrow
  · refine h.newest k hk e ?_
    obtain ⟨U, hU, hrow⟩ := htop.held
    obtain ⟨X, hX, hXrow⟩ := hm.exists_row hs hU hrow
    rcases hhit : LsmKv.tableHit k (front ++ (out.toList ++ back)) with _ | e₀
    · rw [tableHit_eq_none.mp hhit U hU] at hrow
      cases hrow
    · obtain ⟨Y, hY, hYrow⟩ := exists_of_tableHit hhit
      exact ⟨⟨X, hX, hXrow⟩, fun Z hZ e' hZrow =>
        ((htopHit (hkeep hhit)).greatest Z hZ e' hZrow).trans (htop.greatest Y hY e₀ hYrow)⟩
  · have hhit' := tableHit_eq_none.mpr hnone
    rcases hcases k with heq | ⟨e, hhit, -, hgone, -⟩
    · exact h.absent k hk (tableHit_eq_none.mp (heq ▸ hhit'))
    · rw [← h.newest k hk e (htopHit hhit)]
      exact if_pos (hm.tombstone e hgone)

end

/-! ## Reopening -/

/-- Only what the log holds matters to the next session. -/
theorem TableAnswers.reopen (h : TableAnswers V w S W Q live ts) (hw : Remembered V S W Q live) :
    TableAnswers V w W W W (fun r => r ∈ W) ts := by
  refine ⟨h.le, fun r hr hout => (hout.elim (fun hn => hn hr) (fun hn => hn hr)).elim, h.top,
    fun T hT k e he r hr hle => ?_, fun r hr hle => ?_, h.newest, h.absent⟩
  · obtain ⟨z, hz, hzk, rfl⟩ := h.within T hT k e he r (hw.wal.subset hr) hle
    obtain ⟨s, rfl⟩ := hw.wal
    rcases List.mem_append.mp hz with hz | hz
    · have := (List.pairwise_append.mp hw.ascending).2.2 z hz r hr
      rw [Record.row_seqno] at hle
      omega
    · exact ⟨z, hz, hzk, rfl⟩
  · exact (h.settled r (hw.logged r hr) hle).imp_right (fun ⟨hdel, hall, hnone⟩ =>
      ⟨hdel, fun z hz => hall z (hw.logged z hz), hnone⟩)

/-- While nothing is flushed, the watermark may be any above the tables. -/
theorem TableAnswers.lower (h : TableAnswers V w W W W live ts) {w' : ℕ} (hw' : w' ≤ w)
    (hle : ∀ T ∈ ts, T.info.maxSeqno ≤ w') {live' : Record → Prop} (hlive : ∀ r, live' r → live r) :
    TableAnswers V w' W W W live' ts := by
  refine ⟨hle, fun r hr hout => (hout.elim (fun hn => hn hr) (fun hn => hn hr)).elim, h.top,
    h.within, fun r hr hrw => ?_, h.newest, h.absent⟩
  exact (h.settled r (hlive r hr) (hrw.trans hw')).imp_right (fun ⟨hdel, hall, hnone⟩ =>
    ⟨hdel, fun z hz => hall z (hlive z hz), hnone⟩)

end
end LsmKv
