import LsmKv.Outputs
import LsmKv.SeqnoContinuity
import LsmKv.TableAnswers

/-!
# What is read across restarts

A lookup finds the last write of its key in every session, as long as compactions merge tables
in strictly descending order and drop no tombstone while the log or a memtable holds an older
row of its key.
-/

namespace LsmKv
open Sst (TableMeta)
open WalFormat OrderedMap

/-- What the last record of a key says. -/
def lastWritten (rs : List Record) (k : Bytes) : Option Bytes :=
  (lastRecord k rs).bind (fun r => r.row.result)

theorem lastWritten_snoc (rs : List Record) (r : Record) :
    lastWritten (rs ++ [r]) = fun k => if r.key = k then r.row.result else lastWritten rs k := by
  funext k
  rw [lastWritten, lastRecord_snoc]
  split <;> rfl

/-! ## Records, memtables and tables of an open store -/

/-- What a flush may bring back: the records of the log and the rows of the memtables. -/
def Returning (W : List Record) (ps : List (List Record)) (r : Record) : Prop :=
  r ∈ W ∨ ∃ p ∈ ps, lastRecord r.key p = some r

theorem returning_snoc {W q : List Record} {ps : List (List Record)} {r z : Record}
    (h : Returning (W ++ [r]) (ps ++ [q ++ [r]]) z) : Returning W (ps ++ [q]) z ∨ z = r := by
  rcases h with h | ⟨p, hp, hz⟩
  · rcases List.mem_append.mp h with h | h
    · exact .inl (.inl h)
    · exact .inr (List.mem_singleton.mp h)
  · rcases List.mem_append.mp hp with hp | hp
    · exact .inl (.inr ⟨p, List.mem_append_left _ hp, hz⟩)
    · obtain rfl := List.mem_singleton.mp hp
      rw [lastRecord_snoc] at hz
      split at hz
      · exact .inr (Option.some.inj hz).symm
      · exact .inl (.inr ⟨q, by simp, hz⟩)

theorem Returning.of_fresh {W : List Record} {ps : List (List Record)} {z : Record}
    (h : Returning W (ps ++ [[]]) z) : Returning W ps z := by
  refine h.imp_right (fun ⟨p, hp, hz⟩ => ?_)
  rcases List.mem_append.mp hp with hp | hp
  · exact ⟨p, hp, hz⟩
  · obtain rfl := List.mem_singleton.mp hp
    cases hz

/-- What the manifest's tables `M`, the readers' `D`, the log and the memtables know. -/
structure Knows (V : Bytes → Option Bytes) (n : ℕ) (S W Q : List Record) (live : Record → Prop)
    (M D : List LiveTable) : Prop where
  remembered : Remembered V S W Q live
  bounded : ∀ r ∈ S, r.seqno ≤ n
  listed : ∃ w ≤ n, TableAnswers V w S W Q live M
  readable : ∃ w ≤ n, TableAnswers V w S W Q live D
  reads : ∀ k, (∀ r ∈ Q, r.key ≠ k) → (tableHit k D).bind MemEntry.result = V k

section
variable {V : Bytes → Option Bytes} {n : ℕ} {S W Q : List Record} {live live' : Record → Prop}
  {M D M' : List LiveTable}

theorem Knows.write (h : Knows V n S W Q live M D) {r : Record} (hr : n < r.seqno)
    (hlive : ∀ z, live' z → live z ∨ z = r) (hlogged : ∀ z ∈ W ++ [r], live' z) :
    Knows (fun k => if r.key = k then r.row.result else V k) r.seqno (S ++ [r]) (W ++ [r])
      (Q ++ [r]) live' M D := by
  obtain ⟨wM, hwM, hM⟩ := h.listed
  obtain ⟨wD, hwD, hD⟩ := h.readable
  have hlt : ∀ a ∈ S, a.seqno < r.seqno := fun a ha => (h.bounded a ha).trans_lt hr
  refine ⟨h.remembered.write hlt hlive hlogged, fun a ha => ?_,
    ⟨wM, hwM.trans hr.le, hM.write (hwM.trans_lt hr) hlive⟩,
    ⟨wD, hwD.trans hr.le, hD.write (hwD.trans_lt hr) hlive⟩, fun k hk => ?_⟩
  · rcases List.mem_append.mp ha with ha | ha
    · exact (hlt a ha).le
    · exact (List.mem_singleton.mp ha ▸ le_rfl)
  · have hne : r.key ≠ k := hk r (by simp)
    show _ = if r.key = k then _ else _
    rw [if_neg hne]
    exact h.reads k (fun a ha => hk a (List.mem_append_left _ ha))

variable {p : List Record} {T : LiveTable}

theorem Knows.reach_le (h : Knows V n S W (p ++ Q) live M D) (hT : TableOf p T) :
    T.info.maxSeqno ≤ n := by
  obtain ⟨z, hz, hmax⟩ := hT.top
  exact hmax ▸ h.bounded z (h.remembered.mem.subset (List.mem_append_left _ hz))

/-- The first block is flushed, and the log may lose what tables cover. -/
theorem Knows.flush (h : Knows V n S W (p ++ Q) live M M) (hT : TableOf p T)
    (hrows : ∀ k z, lastRecord k p = some z → live z) {W' : List Record} (hW' : W' <:+ W)
    (hgone : ∀ r ∈ W, r ∉ W' → ∀ w, (∀ U ∈ T :: M, U.info.maxSeqno ≤ w) → r.seqno ≤ w)
    (hlive : ∀ z, live' z → live z) (hlogged : ∀ z ∈ W', live' z) :
    Knows V n S W' Q live' (T :: M) (T :: M) := by
  obtain ⟨w, hw, hM⟩ := h.listed
  have hadd := hM.add h.remembered hT hrows
  have hcovered : ∀ r ∈ p ++ Q, r ∉ Q → r.seqno ≤ max w T.info.maxSeqno := by
    intro r hr hout
    have hp : r ∈ p := (List.mem_append.mp hr).resolve_right hout
    exact (hT.le_max hp h.remembered.ascending_block).trans (le_max_right _ _)
  have hshrunk := hadd.shrink h.remembered hlive (fun r hr hout => hgone r hr hout _ hadd.le)
    hcovered
  have hn : max w T.info.maxSeqno ≤ n := max_le hw (h.reach_le hT)
  have hsuffix : Q <:+ S := (List.suffix_append p Q).trans h.remembered.mem
  refine ⟨⟨h.remembered.ascending, hW'.trans h.remembered.wal, hsuffix,
    fun r hr => h.remembered.known r (hlive r hr), hlogged, h.remembered.last⟩, h.bounded,
    ⟨_, hn, hshrunk⟩, ⟨_, hn, hshrunk⟩, fun k hk => ?_⟩
  rw [tableHit_cons]
  rcases hfind : T.rows.find? k with _ | e
  · refine h.reads k (fun r hr hrk => ?_)
    rcases List.mem_append.mp hr with hr | hr
    · obtain ⟨z, hz⟩ := exists_lastRecord hr hrk
      rw [hT.rows, hz] at hfind
      cases hfind
    · exact hk r hr hrk
  · obtain ⟨z, hz, rfl⟩ := hT.exists_record hfind
    refine h.remembered.last k z (lastRecord_of_suffix h.remembered.mem ?_)
    rw [lastRecord_append, lastRecord_eq_none.mpr hk, hz]
    rfl

/-- A table the readers do not get to see. -/
theorem Knows.halfFlush (h : Knows V n S W (p ++ Q) live M D) (hT : TableOf p T)
    (hrows : ∀ k z, lastRecord k p = some z → live z) :
    Knows V n S W (p ++ Q) live (T :: M) D := by
  obtain ⟨w, hw, hM⟩ := h.listed
  exact ⟨h.remembered, h.bounded, ⟨_, max_le hw (h.reach_le hT), hM.add h.remembered hT hrows⟩,
    h.readable, h.reads⟩

theorem Knows.compact (h : Knows V n S W Q live M D) {ids : List ℕ}
    {front inputs back : List LiveTable} {gone : MemEntry → Bool} {out : Option LiveTable}
    (hn : Newest M) (hs : Selects M ids front inputs back)
    (hm : Merges (front ++ back) inputs gone out)
    (hdrop : ∀ k e, tableHit k inputs = some e → gone e = true → ∀ r, live r → r.key = k →
      e.seqno ≤ r.seqno)
    (hperm : M'.Perm (front ++ (out.toList ++ back)))
    (hsorted : M'.Pairwise (fun T U => U.info.maxSeqno ≤ T.info.maxSeqno))
    {D' : List LiveTable} (hD : D' = D ∨ D' = M') : Knows V n S W Q live M' D' := by
  obtain ⟨w, hw, hM⟩ := h.listed
  have hnew := (hM.compact h.remembered hn hs hm hdrop).of_perm hperm
  rcases hD with rfl | rfl
  · exact ⟨h.remembered, h.bounded, ⟨w, hw, hnew⟩, h.readable, h.reads⟩
  · exact ⟨h.remembered, h.bounded, ⟨w, hw, hnew⟩, ⟨w, hw, hnew⟩,
      fun k hk => hnew.tableHit h.remembered hsorted hk⟩

end

/-! ## An open store -/

/-- An open store whose log, memtables and tables tell what was last written. -/
structure Tells (V : Bytes → Option Bytes) (e : Engine) (M D : List LiveTable)
    (S : List Record) (ps : List (List Record)) (q : List Record) : Prop where
  log : WalLog.Intact e.wal
  walOpen : e.wal.isOpen = true
  isOpen : e.closed = false
  fits : ∀ r ∈ WalLog.records e.wal.dir, WalLog.Fits r
  holds : Holds e M D
  version : e.version = ⟨e.immutables, e.readers⟩
  immutables : e.immutables = (ps.map e.config.memtable).reverse
  active : e.active = e.config.memtable q
  nonempty : ∀ p ∈ ps, p ≠ []
  knows : Knows V e.wal.lastSeqno S (WalLog.records e.wal.dir) (ps.flatten ++ q)
    (Returning (WalLog.records e.wal.dir) (ps ++ [q])) M D

theorem find_memtable (c : Config) (rs : List Record) (k : Bytes) :
    (c.memtable rs).find k = (lastRecord k rs).map Record.row :=
  Memtable.find?_ofRecords c.overheadBytesPerEntry rs k

theorem findMemtables_pieces (c : Config) (ps : List (List Record)) (k : Bytes) :
    Engine.findMemtables k (ps.map c.memtable).reverse =
      (lastRecord k ps.flatten).map Record.row := by
  induction ps using List.reverseRecOn with
  | nil => rfl
  | append_singleton ps p ih =>
    have hcons : (List.map c.memtable (ps ++ [p])).reverse =
        c.memtable p :: (ps.map c.memtable).reverse := by simp
    rw [hcons, List.flatten_append, lastRecord_append, List.flatten_singleton,
      Engine.findMemtables, List.findSome?_cons, find_memtable]
    rcases lastRecord k p with _ | z
    · exact ih
    · rfl

/-- A get finds the last record of its key in the memtables, else the first row in the tables. -/
theorem get_of_pieces {e : Engine} {c : Config} {ps : List (List Record)} {q : List Record}
    {D : List LiveTable} {k : Bytes} (hopen : e.ensureOpen = .ok ())
    (hversion : e.version = ⟨e.immutables, e.readers⟩) (hactive : e.active = c.memtable q)
    (himmutables : e.immutables = (ps.map c.memtable).reverse)
    (htables : Engine.readTables e.misindexed e.files k e.readers = .ok (tableHit k D))
    (hk : k ≠ []) : e.get k =
      .ok ((((lastRecord k (ps.flatten ++ q)).map Record.row).or (tableHit k D)).bind
        MemEntry.result) := by
  rw [lastRecord_append, Engine.get, hopen, hactive, hversion, himmutables, find_memtable,
    findMemtables_pieces]
  simp only [if_neg hk]
  rcases lastRecord k q with _ | z
  · rcases lastRecord k ps.flatten with _ | z
    · simp only [Option.map_none]
      rw [htables]
      rfl
    · rfl
  · rfl

section
variable {V : Bytes → Option Bytes} {e e' : Engine} {M D M' D' : List LiveTable} {S : List Record}
  {ps : List (List Record)} {q : List Record}

theorem Tells.get (h : Tells V e M D S ps q) (hindexed : e.misindexed = []) {k : Bytes}
    (hk : k ≠ []) : e.get k = .ok (V k) := by
  have hopen : e.ensureOpen = .ok () := by rw [Engine.ensureOpen, h.isOpen]; rfl
  have hread : Engine.readTables e.misindexed e.files k e.readers = .ok (tableHit k D) := by
    rw [hindexed, readTables_nil, h.holds.findTables]
  rw [get_of_pieces hopen h.version h.active h.immutables hread hk]
  refine congrArg Except.ok ?_
  rcases hlast : lastRecord k (ps.flatten ++ q) with _ | z
  · exact h.knows.reads k (lastRecord_eq_none.mp hlast)
  · exact h.knows.remembered.last k z (lastRecord_of_suffix h.knows.remembered.mem hlast)

/-- The table of the oldest immutable is that of the first block. -/
theorem tableOf_memtable {c : Config} {p : List Record} {T : LiveTable} (hne : p ≠ [])
    (h : T.rows = (c.memtable p).map) : TableOf p T := by
  refine ⟨hne, fun k => h ▸ Memtable.find?_ofRecords _ p k, ?_⟩
  obtain ⟨k, e, hk, hmax⟩ := T.exists_top
  rw [h] at hk
  obtain ⟨r, hr, -, rfl⟩ := Memtable.exists_of_find?_ofRecords hk
  exact ⟨r, hr, hmax⟩

theorem Tells.exists_oldest (h : Tells V e M D S ps q) {target : Memtable}
    (ht : e.immutables.getLast? = some target) {T : LiveTable} (hT : T.rows = target.map) :
    ∃ p ps', ps = p :: ps' ∧ TableOf p T := by
  rw [h.immutables] at ht
  rcases ps with _ | ⟨p, ps'⟩
  · cases ht
  · obtain rfl : e.config.memtable p = target := by simpa using ht
    exact ⟨p, ps', rfl, tableOf_memtable (h.nonempty p List.mem_cons_self) hT⟩

theorem Tells.write (h : Tells V e M D S ps q) {r : Record} (hfit : WalLog.Fits r)
    (hw : Writes e r e') : ∃ ps' q',
      Tells (fun k => if r.key = k then r.row.result else V k) e' M D (S ++ [r]) ps' q' := by
  obtain ⟨l, happ, hcases⟩ := hw.applied
  have hlt : e.wal.lastSeqno < r.seqno := hw.fresh ▸ Nat.lt_succ_self _
  have hactive : e.active.applyRecord r = e.config.memtable (q ++ [r]) := by
    rw [h.active, e.config.memtable_snoc]
  have hfits : ∀ a ∈ WalLog.records e.wal.dir ++ [r], WalLog.Fits a := by
    intro a ha
    rcases List.mem_append.mp ha with ha | ha
    · exact h.fits a ha
    · exact List.mem_singleton.mp ha ▸ hfit
  rcases hcases with ⟨-, rfl⟩ | ⟨-, l', hroll, rfl⟩
  · refine ⟨ps, q ++ [r], happ.intact, happ.isOpen, h.isOpen, happ.records.symm ▸ hfits,
      h.holds.of_eq rfl rfl rfl rfl rfl, h.version, h.immutables, hactive, h.nonempty, ?_⟩
    show Knows _ l.lastSeqno _ (WalLog.records l.dir) _ _ _ _
    rw [happ.records, happ.lastSeqno, ← List.append_assoc]
    exact h.knows.write hlt (fun z hz => returning_snoc hz) (fun z hz => .inl hz)
  · refine ⟨ps ++ [q ++ [r]], [], hroll.intact, hroll.isOpen, h.isOpen,
      hroll.records.symm ▸ happ.records.symm ▸ hfits, h.holds.of_eq rfl rfl rfl rfl rfl, rfl, ?_,
      rfl, fun p hp => ?_, ?_⟩
    · show e.active.applyRecord r :: e.immutables = _
      rw [hactive, h.immutables]
      simp
    · rcases List.mem_append.mp hp with hp | hp
      · exact h.nonempty p hp
      · exact List.mem_singleton.mp hp ▸ by simp
    · show Knows _ l'.lastSeqno _ (WalLog.records l'.dir) _ _ _ _
      have hflatten : (ps ++ [q ++ [r]]).flatten ++ [] = ps.flatten ++ q ++ [r] := by simp
      rw [hroll.records, hroll.lastSeqno, happ.records, happ.lastSeqno, hflatten]
      exact h.knows.write hlt (fun z hz => returning_snoc hz.of_fresh) (fun z hz => .inl hz)

theorem Tells.flush (h : Tells V e M D S ps q) {target : Memtable} {T : LiveTable}
    (hf : Flushed e M D target T e') : ∃ ps', Tells V e' (T :: M) (T :: M) S ps' q := by
  obtain ⟨p, ps', rfl, hT⟩ := h.exists_oldest hf.oldest hf.rows
  obtain ⟨gone, hsplit, hgone⟩ :=
    WalLog.exists_removed h.log (e.manifest.addTable T.info).maxSeqno
  have hopen := WalLog.isOpen_removeCovered e.wal (e.manifest.addTable T.info).maxSeqno
  have hholds := hf.holds
  obtain rfl := hf.saved
  obtain ⟨files, misindexed, rfl⟩ := hf.eq
  have hknows := h.knows
  rw [List.flatten_cons, List.append_assoc] at hknows
  refine ⟨ps', WalLog.intact_removeCovered h.log _, hopen.1.trans h.walOpen, h.isOpen,
    fun r hr => h.fits r (hsplit ▸ List.mem_append_right _ hr), hholds, rfl, ?_, h.active,
    fun p' hp' => h.nonempty p' (List.mem_cons_of_mem _ hp'), ?_⟩
  · show e.immutables.dropLast = _
    rw [h.immutables]
    simp
  · show Knows V (e.wal.removeSegmentsCovered _).1.lastSeqno S _ _ _ _ _
    rw [hopen.2]
    refine hknows.flush hT (fun k z hz => ?_) ⟨gone, hsplit.symm⟩ (fun r hr hout w hw => ?_)
      (fun z hz => ?_) (fun z hz => .inl hz)
    · obtain ⟨-, rfl⟩ := mem_of_lastRecord hz
      exact .inr ⟨p, by simp, hz⟩
    · rw [hsplit] at hr
      have hcovered := hgone r ((List.mem_append.mp hr).resolve_right hout)
      refine hcovered.trans (Manifest.maxSeqno_le (fun t ht => ?_))
      rw [← hholds.manifest] at ht
      obtain ⟨U, hU, rfl⟩ := List.mem_map.mp ht
      exact hw U hU
    · rcases hz with hz | ⟨p', hp', hz⟩
      · exact .inl (hsplit ▸ List.mem_append_right _ hz)
      · exact .inr ⟨p', by simpa using .inr (by simpa using hp'), hz⟩

theorem Tells.halfFlush (h : Tells V e M D S ps q) {target : Memtable} {T : LiveTable}
    (hf : HalfFlushed e M D target T e') : Tells V e' (T :: M) D S ps q := by
  obtain ⟨p, ps', rfl, hT⟩ := h.exists_oldest hf.oldest hf.rows
  have hholds := hf.holds
  obtain ⟨files, misindexed, rfl⟩ := hf.eq
  have hknows := h.knows
  rw [List.flatten_cons, List.append_assoc] at hknows
  refine ⟨h.log, h.walOpen, h.isOpen, h.fits, hholds, h.version, h.immutables, h.active,
    h.nonempty, ?_⟩
  rw [List.flatten_cons, List.append_assoc]
  refine hknows.halfFlush hT (fun k z hz => ?_)
  obtain ⟨-, rfl⟩ := mem_of_lastRecord hz
  exact .inr ⟨p, by simp, hz⟩

/-! ## Compactions -/

/-- A row of `key` older than `n` is in the log or in a memtable. -/
def Remains (key : Bytes) (n : ℕ) (e : Engine) : Prop :=
  (∃ r ∈ WalLog.records e.wal.dir, r.key = key ∧ r.seqno < n) ∨
    ∃ m ∈ e.active :: e.immutables, ∃ row ∈ m.map.find? key, row.seqno < n

instance (key : Bytes) (n : ℕ) (e : Engine) : Decidable (Remains key n e) :=
  inferInstanceAs (Decidable (_ ∨ _))

/-- Merging `ids` drops no tombstone while an older row of its key remains. -/
def DropsLast (ids : List ℕ) (now : ℕ) (e : Engine) : Prop :=
  ∀ t ∈ e.inputMeta ids, ∀ rows ∈ e.files.find? t.id, ∀ p ∈ rows.entries,
    Engine.findTables e.files p.1 (e.inputMeta ids) = .ok (some p.2) →
    e.drops ids now p.2 = true → ¬Remains p.1 p.2.seqno e

instance (ids : List ℕ) (now : ℕ) (e : Engine) : Decidable (DropsLast ids now e) :=
  inferInstanceAs (Decidable (∀ t ∈ e.inputMeta ids, ∀ rows ∈ e.files.find? t.id,
    ∀ p ∈ rows.entries, Engine.findTables e.files p.1 (e.inputMeta ids) = .ok (some p.2) →
      e.drops ids now p.2 = true → ¬Remains p.1 p.2.seqno e))

/-- Writes fit the scanner's cap, and compactions merge tables in strictly descending order and
drop tombstones last. -/
def Orderly (e : Engine) : Call → Prop
  | .put key value => kMinPayload + key.length + value.length ≤ kMaxPayload
  | .remove key => kMinPayload + key.length ≤ kMaxPayload
  | .flushOne _ => True
  | .runCompaction inputs now _ => ∀ ids ∈ (e.chooseInputs inputs).toOption.join,
    Descending e.manifest.tables ∧ DropsLast ids now e

instance (e : Engine) : (c : Call) → Decidable (Orderly e c)
  | .put _ _ | .remove _ => inferInstanceAs (Decidable (_ ≤ _))
  | .flushOne _ => inferInstanceAs (Decidable True)
  | .runCompaction inputs now _ => inferInstanceAs
      (Decidable (∀ ids ∈ (e.chooseInputs inputs).toOption.join,
        Descending e.manifest.tables ∧ DropsLast ids now e))

/-- An orderly call that writes a table that can be read back and has its numbers left. -/
def Lasting (e : Engine) (c : Call) : Prop := Orderly e c ∧ e.OutputReadable c ∧ e.InRange c

instance (e : Engine) (c : Call) : Decidable (Lasting e c) :=
  inferInstanceAs (Decidable (_ ∧ _ ∧ _))

theorem Tells.remains (h : Tells V e M D S ps q) {r : Record} {n : ℕ}
    (hr : Returning (WalLog.records e.wal.dir) (ps ++ [q]) r) (hlt : r.seqno < n) :
    Remains r.key n e := by
  rcases hr with hr | ⟨p, hp, hz⟩
  · exact .inl ⟨r, hr, rfl, hlt⟩
  · refine .inr ⟨e.config.memtable p, ?_, r.row, ?_, hlt⟩
    · rw [h.active, h.immutables]
      rcases List.mem_append.mp hp with hp | hp
      · exact List.mem_cons_of_mem _ (List.mem_reverse.mpr (List.mem_map_of_mem hp))
      · exact List.mem_singleton.mp hp ▸ List.mem_cons_self
    · show (e.config.memtable p).find r.key = _
      rw [find_memtable, hz]
      rfl

theorem Tells.compact (h : Tells V e M D S ps q) {choice : Option (List ℕ)} {now : ℕ}
    (hc : Compacted e M D choice now e' M' D') (hs : SameMemory e e')
    (hv : e'.version.tables = e'.readers)
    (horderly : ∀ ids ∈ (e.chooseInputs choice).toOption.join,
      Descending e.manifest.tables ∧ DropsLast ids now e) : Tells V e' M' D' S ps q := by
  obtain ⟨ids, front, inputs, back, out, hchoice, hsel, hmerges, hperm, hsorted⟩ := hc.plan
  obtain ⟨hdesc, hdrops⟩ := horderly ids (by rw [hchoice]; rfl)
  have hversion : e'.version = ⟨e'.immutables, e'.readers⟩ := by
    rw [← hv, hs.immutables]
    have himm : e'.version.immutables = e.immutables :=
      hs.version.elim (fun heq => heq.trans (by rw [h.version])) id
    rw [← himm]
  have hdrop : ∀ k row, tableHit k inputs = some row → e.drops ids now row = true →
      ∀ r, Returning (WalLog.records e.wal.dir) (ps ++ [q]) r → r.key = k →
        row.seqno ≤ r.seqno := by
    rintro k row hrow hgone r hr rfl
    obtain ⟨T, hT, hfind⟩ := exists_of_tableHit hrow
    have hfiles : ∀ T ∈ inputs, e.files.find? T.info.id = some T.rows := fun T hT =>
      h.holds.files T (List.mem_append_left _ (hsel.mem.mpr (.inr hT)))
    by_contra hlt
    have hinputs := h.holds.inputMeta hsel
    refine hdrops T.info (hinputs ▸ List.mem_map_of_mem hT) T.rows (hfiles T hT) (r.key, row)
      (find?_eq_some_iff.mp hfind) ?_ hgone (h.remains hr (not_le.mp hlt))
    rw [hinputs, findTables_eq hfiles, hrow]
  have hpairwise : M'.Pairwise (fun T U => U.info.maxSeqno ≤ T.info.maxSeqno) := by
    have := e.config.sort.descending ((front ++ (back ++ out.toList)).map (·.info))
    rw [← hsorted] at this
    exact List.pairwise_map.mp this
  have hnewest : Newest M := by
    rw [Newest, h.holds.manifest]
    exact hdesc
  have hknows := h.knows.compact hnewest hsel hmerges hdrop
    (hperm.trans (List.perm_append_comm.append_left front)) hpairwise hc.readers
  refine ⟨hs.wal ▸ h.log, hs.wal ▸ h.walOpen, hs.closed.trans h.isOpen, hs.wal ▸ h.fits, hc.holds,
    hversion, ?_, ?_, h.nonempty, hs.wal ▸ hknows⟩
  · rw [hs.immutables, hs.config, h.immutables]
  · rw [hs.active, hs.config, h.active]

end

/-! ## Closing and opening -/

/-- A directory whose log and tables tell what was last written. -/
structure Disk.Tells (V : Bytes → Option Bytes) (d : Disk) (D : List LiveTable) : Prop where
  log : WalLog.Sealed d.wal
  fits : ∀ r ∈ WalLog.records d.wal, WalLog.Fits r
  ascending : Ascending (WalLog.records d.wal)
  holds : d.Holds D
  last : ∀ k r, lastRecord k (WalLog.records d.wal) = some r → r.row.result = V k
  tables : ∃ w, TableAnswers V w (WalLog.records d.wal) (WalLog.records d.wal)
    (WalLog.records d.wal) (fun r => r ∈ WalLog.records d.wal) D

theorem Tells.close {V : Bytes → Option Bytes} {e : Engine} {M D : List LiveTable}
    {S : List Record} {ps : List (List Record)} {q : List Record} (h : Tells V e M D S ps q) :
    e.close.disk.Tells V D := by
  obtain ⟨hsealed, hrecords⟩ := h.log.toLive.close h.walOpen
  have hwal : e.close.disk.wal = e.wal.close.dir := by
    rw [Engine.close, h.isOpen]
    rfl
  obtain ⟨w, -, hD⟩ := h.knows.readable
  refine ⟨hwal ▸ hsealed, ?_, ?_, h.holds.close, ?_, w, ?_⟩ <;> rw [hwal, hrecords]
  · exact h.fits
  · exact h.log.increasing
  · exact fun k r hr => h.knows.remembered.last k r (lastRecord_of_suffix h.knows.remembered.wal hr)
  · exact hD.reopen h.knows.remembered

theorem Disk.Tells.opened {V : Bytes → Option Bytes} {d : Disk} {D : List LiveTable}
    (h : d.Tells V D) (config : Config) : ∃ M ps q,
      LsmKv.Tells V (Host.opened config d) M M (WalLog.records d.wal) ps q := by
  obtain ⟨M, hperm, hsorted, hM⟩ := exists_loaded h.holds config
  have hM : LsmKv.Holds (Host.opened config d) M M := hM
  have hrec := recovers_recover config h.log h.fits h.ascending
  obtain ⟨ps, q, hsplit, hne, hreplayed⟩ := config.exists_pieces (WalLog.records d.wal)
  have hmemtables := hrec.memtables.trans hreplayed
  obtain ⟨w, hD⟩ := h.tables
  have hw : (Host.opened config d).manifest.maxSeqno ≤ w := by
    refine Manifest.maxSeqno_le (fun t ht => ?_)
    rw [← hM.manifest] at ht
    obtain ⟨T, hT, rfl⟩ := List.mem_map.mp ht
    exact hD.le T (hperm.mem_iff.mp hT)
  have hlive : ∀ r, Returning (WalLog.records d.wal) (ps ++ [q]) r → r ∈ WalLog.records d.wal := by
    rintro r (hr | ⟨p, hp, hz⟩)
    · exact hr
    · have hrp := (mem_of_lastRecord hz).1
      rw [hsplit]
      rcases List.mem_append.mp hp with hp | hp
      · exact List.mem_append_left _ (List.mem_flatten.mpr ⟨p, hp, hrp⟩)
      · exact List.mem_append_right _ (List.mem_singleton.mp hp ▸ hrp)
  have hlast : (Host.opened config d).wal.lastSeqno = max (WalLog.maxSeqno (WalLog.records d.wal))
      (Host.opened config d).manifest.maxSeqno := hrec.lastSeqno
  have htables := (hD.of_perm hperm).lower hw
    (fun T hT => Manifest.le_maxSeqno (hM.mem_manifest hT)) hlive
  have hremembered : Remembered V (WalLog.records d.wal) (WalLog.records d.wal)
      (WalLog.records d.wal) (Returning (WalLog.records d.wal) (ps ++ [q])) :=
    ⟨h.ascending, List.suffix_refl _, List.suffix_refl _, hlive, fun r hr => .inl hr, h.last⟩
  have hpairwise : M.Pairwise (fun T U => U.info.maxSeqno ≤ T.info.maxSeqno) := by
    have hdescending : (M.map (·.info)).Pairwise (fun a b => b.maxSeqno ≤ a.maxSeqno) := by
      rw [hsorted]
      rcases d.manifest with _ | m
      · exact .nil
      · exact config.sort.descending m.tables
    exact List.pairwise_map.mp hdescending
  have hconfig : (Host.opened config d).config = config := by
    rw [Host.opened, recover_eq]
    rfl
  refine ⟨M, ps, q, hrec.log, hrec.isOpen, ?_, ?_, hM, ?_, ?_, ?_, hne, ?_⟩
  · rw [Host.opened, recover_eq]
    rfl
  · exact hrec.records.symm ▸ h.fits
  · rw [Host.opened, recover_eq]
  · rw [hconfig]
    exact congrArg Memtables.immutables hmemtables
  · rw [hconfig]
    exact congrArg Memtables.active hmemtables
  · rw [show WalLog.records (Host.opened config d).wal.dir = _ from hrec.records, ← hsplit, hlast]
    exact ⟨hremembered, fun r hr => (WalLog.le_maxSeqno hr).trans (le_max_left _ _),
      ⟨_, le_max_right _ _, htables⟩, ⟨_, le_max_right _ _, htables⟩,
      fun k hk => htables.tableHit hremembered hpairwise hk⟩

/-! ## Runs -/

/-- A directory that opens whatever the settings, or a store that finds the last write of every
key. -/
def Host.Reads (rs : List Record) : Host → Prop
  | .shut d => ∀ config, ∃ e, Engine.open config d = .ok e
  | .up e => ∀ k, k ≠ [] → e.get k = .ok (lastWritten rs k)

def Host.Tells (rs : List Record) : Host → Prop
  | .shut d => ∃ D, d.Tells (lastWritten rs) D
  | .up e => ∃ M D S ps q, LsmKv.Tells (lastWritten rs) e M D S ps q

theorem Host.Tells.reads {s : Host} {rs : List Record} (h : s.Tells rs) (hloads : s.Loads) :
    s.Reads rs := by
  rcases s with d | e
  · obtain ⟨D, hD⟩ := h
    exact fun config => ⟨_, open_of_holds hD.holds hloads.1 config⟩
  · obtain ⟨M, D, S, ps, q, hM⟩ := h
    exact fun k hk => hM.get hloads.2 hk

theorem tells_write {e : Engine} {rs : List Record} {M D : List LiveTable} {S : List Record}
    {ps : List (List Record)} {q : List Record} (h : Tells (lastWritten rs) e M D S ps q)
    {del : Bool} {key value : Bytes}
    (hfit : kMinPayload + key.length + value.length ≤ kMaxPayload) :
    Host.Tells (rs ++ ((e.write del key value).2.toOption.map
      (fun n => (⟨del, key, value, n⟩ : Record))).toList) (.up (e.write del key value).1) := by
  rcases Engine.accepted_cases h.log del key value with ⟨heq, hnone⟩ | ⟨r, hkey, hvalue, hw, hsome⟩
  · rw [heq, hnone, Option.toList_none, List.append_nil]
    exact ⟨M, D, S, ps, q, h⟩
  · have hfits : WalLog.Fits r := by
      rw [WalLog.Fits, payloadSize, hkey, hvalue]
      exact hfit
    obtain ⟨ps', q', hnew⟩ := h.write hfits hw
    rw [← lastWritten_snoc] at hnew
    rw [hsome]
    exact ⟨M, D, S ++ [r], ps', q', hnew⟩

theorem tells_step {opens : Config → Prop} {ok : Engine → Call → Prop}
    (hok : ∀ e c, ok e c → Orderly e c) {s s' : Host} {rs rs' : List Record}
    (h : s.Tells rs) (hs : Host.Moves opens ok (s, rs) (s', rs')) : s'.Tells rs' := by
  cases hs with
  | «open» hc ho =>
    rename_i config d e
    obtain ⟨D, hD⟩ := h
    obtain ⟨M, ps, q, hM⟩ := hD.opened config
    obtain rfl := eq_of_open ho
    exact ⟨M, M, _, ps, q, hM⟩
  | close =>
    obtain ⟨M, D, S, ps, q, hM⟩ := h
    exact ⟨D, hM.close⟩
  | call hc =>
    rename_i e c
    obtain ⟨M, D, S, ps, q, hM⟩ := h
    have hquiet : ∀ e' : Engine, Host.Tells rs (.up e') → Host.Tells (rs ++ []) (.up e') := by
      intro e' he'
      rwa [List.append_nil]
    have hc := hok e c hc
    cases c with
    | put key value => exact tells_write hM hc
    | remove key => exact tells_write hM hc
    | flushOne now =>
      refine hquiet (e.flushOne now).1 ?_
      rcases hM.holds.flushOne now with ⟨heq, -⟩ | ⟨target, T, hf, -⟩ | ⟨target, T, hf, -⟩
      · rw [heq]
        exact ⟨M, D, S, ps, q, hM⟩
      · obtain ⟨ps', hnew⟩ := hM.flush hf
        exact ⟨_, _, S, ps', q, hnew⟩
      · exact ⟨_, _, S, ps, q, hM.halfFlush hf⟩
    | runCompaction inputs now created =>
      refine hquiet (e.runCompaction inputs now created).1 ?_
      have hversion : e.version.tables = e.readers := by rw [hM.version]
      rcases hM.holds.runCompaction hversion inputs now created with heq | ⟨⟨M', D', hcomp⟩, hs, hv⟩
      · rw [heq]
        exact ⟨M, D, S, ps, q, hM⟩
      · exact ⟨M', D', S, ps, q, hM.compact hcomp hs hv hc⟩

theorem disk_tells_empty : Disk.Tells (lastWritten []) {} [] where
  log _ hp := nomatch hp
  fits _ hr := nomatch hr
  ascending := .nil
  holds := disk_holds_empty
  last _ _ hr := nomatch hr
  tables := ⟨0, nofun, nofun, (fun _ _ _ h => nomatch h.mem), nofun, nofun,
    (fun _ _ _ h => nomatch h.held), fun _ _ _ => rfl⟩

/-- Sessions from an empty directory, each with settings of its own, whose calls are all orderly
and write what can be found again. -/
theorem reads_of_orderly {s : Host} {rs : List Record}
    (h : Host.History (fun _ => True) Lasting (.shut {}, []) (s, rs)) : s.Reads rs := by
  obtain ⟨htells, hloads⟩ := h.invariant (P := fun s rs => s.Tells rs ∧ s.Loads)
    (fun _ _ _ _ ht hs => ⟨tells_step (fun _ _ hc => hc.1) ht.1 hs,
      ht.2.step (fun _ _ hc => hc.2.1) hs.proceeds.step⟩) ⟨⟨[], disk_tells_empty⟩, Host.loads_empty⟩
  exact htells.reads hloads

/-- A key is written, flushed, removed, flushed and compacted away. -/
def removedForGood : List (Config × List Call) :=
  [(Config.small 1 1 1000, [.put [97] [1], .flushOne 5, .remove [97], .flushOne 5,
    .runCompaction (some [2, 1]) 100 100])]

theorem reads_removedForGood :
    Host.Reads (Host.written {} removedForGood ++
        (Host.opened (Config.small 100 4 1000) (Host.after {} removedForGood)).acceptedAll
          [.put [98] [2]])
      (.up ((Host.opened (Config.small 100 4 1000) (Host.after {} removedForGood)).performAll
        [.put [98] [2]])) :=
  reads_of_orderly ((Host.history_after (fun _ _ => trivial) (by decide +kernel)).trans
    (Host.history_session trivial (by decide +kernel) (by decide +kernel)))

/-- A key is written twice. Two more sessions with smaller memtables flush what the first had in
one, and the second of them makes two tables that overlap the one there is. -/
def cutThrice : List (Config × List Call) :=
  [(Config.small 100000 4 1000, [.put [97] [1], .put [99] [2], .put [98] [3], .put [100] [4],
      .put [99] [5], .put [102] [6]]),
    (Config.small 15 4 1000, [.flushOne 1]),
    (Config.small 6 4 1, [.put [120] [7], .flushOne 1, .flushOne 1,
      .runCompaction (some [1, 2]) 5 5])]

/-- The merge takes the older row of `c` for the newer one. -/
theorem not_reads_cutThrice :
    Host.History (fun _ => True) (fun _ _ => True) (.shut {}, [])
      (.up (Host.opened (Config.small 100000 4 1000) (Host.after {} cutThrice)),
        Host.written {} cutThrice) ∧
    ¬Host.Reads (Host.written {} cutThrice)
      (.up (Host.opened (Config.small 100000 4 1000) (Host.after {} cutThrice))) := by
  refine ⟨?_, fun h => ?_⟩
  · have hopen : (Engine.open (Config.small 100000 4 1000) (Host.after {} cutThrice)).map
        (fun _ => ()) = .ok () := by decide +kernel
    exact (Host.history_after (fun _ _ => trivial) (by decide +kernel)).tail
      (.open trivial (Host.open_of_map hopen))
  · have hget : (Host.opened (Config.small 100000 4 1000) (Host.after {} cutThrice)).get [99] =
        .ok (some [2]) := by decide +kernel
    have hlast : lastWritten (Host.written {} cutThrice) [99] = some [5] := by decide +kernel
    have hread := h [99] (by decide)
    rw [hget, hlast] at hread
    exact absurd hread (by decide)

end LsmKv
