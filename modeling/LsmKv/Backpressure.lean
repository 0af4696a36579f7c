import LsmKv.LogBlocks
import LsmKv.SeqnoRanges

/-!
# Clearing backpressure

A refused write asks for a flush. Flushing clears the way as long as no log segment takes a
record behind one at which replay cuts a memtable: then everything flushed leaves the log.
-/

namespace LsmKv
open Sst (TableMeta)
open WalFormat

/-! ## Refused writes -/

/-- Writes are refused for a full memtable and a full queue. -/
def Engine.Stalled (e : Engine) : Prop := e.ensureWriteCapacity =
  .error ⟨.backpressure, "memtable full and immutable tables at limit; run flush-now"⟩

instance (e : Engine) : Decidable e.Stalled := inferInstanceAs (Decidable (_ = _))

theorem Engine.Stalled.full {e : Engine} (h : e.Stalled) :
    e.config.memtableMaxBytes ≤ e.active.bytes ∧
      e.config.maxImmutableTables ≤ e.immutables.length := by
  rw [Engine.Stalled, Engine.ensureWriteCapacity] at h
  split at h
  · exact absurd (congrArg Error.message (Except.error.inj h)) (by decide)
  split at h
  · cases h
  · omega

/-- After a session that flushes, the next one takes a write that this one refuses. -/
def Clears (e : Engine) : Prop :=
  e.Stalled → ∀ flush_clock compact_clock e₁ e₂ results e₃,
    Engine.open e.config e.close.disk = .ok e₁ →
    e₁.flushPending flush_clock compact_clock = (e₂, .ok results) →
    Engine.open e.config e₂.close.disk = .ok e₃ → ¬e₃.Stalled

/-- A write that is let in fits the scanner's cap, finds room in the active memtable, and goes
to a segment that holds no record of another memtable. -/
def Unmixed (e : Engine) : Call → Prop
  | .put key value => e.ensureWriteCapacity = .ok () →
      kMinPayload + key.length + value.length ≤ kMaxPayload ∧
      e.active.bytes < e.config.memtableMaxBytes ∧
      (e.wal.activeFile.data = [] ∨ e.active.entries ≠ 0)
  | .remove key => e.ensureWriteCapacity = .ok () →
      kMinPayload + key.length ≤ kMaxPayload ∧
      e.active.bytes < e.config.memtableMaxBytes ∧
      (e.wal.activeFile.data = [] ∨ e.active.entries ≠ 0)
  | _ => True

instance (e : Engine) : (c : Call) → Decidable (Unmixed e c)
  | .put _ _ | .remove _ => inferInstanceAs (Decidable (_ → _ ∧ _ ∧ (_ ∨ _)))
  | .flushOne _ | .runCompaction .. => inferInstanceAs (Decidable True)

/-! ## The tables and the pieces -/

/-- The tables reach no higher than `w`, and behind the first piece of the log all is newer. -/
structure Listed (c : Config) (e : Engine) (M D : List LiveTable) (w : ℕ)
    (ps : List (List Record)) (q : List Record) : Prop where
  config : e.config = c
  isOpen : e.closed = false
  holds : Holds e M D
  version : e.version.tables = e.readers
  tables : ∀ T ∈ M ++ D, T.info.maxSeqno ≤ w
  counter : w ≤ e.wal.lastSeqno
  rest : ps ≠ [] → ∀ r ∈ ps.tail.flatten ++ q, w < r.seqno

section
variable {c : Config} {e e' : Engine} {M D M' D' : List LiveTable} {w : ℕ}
  {ps : List (List Record)} {q : List Record}

theorem Listed.maxSeqno_le (h : Listed c e M D w ps q) : e.manifest.maxSeqno ≤ w := by
  refine Manifest.maxSeqno_le (fun t ht => ?_)
  rw [← h.holds.manifest] at ht
  obtain ⟨T, hT, rfl⟩ := List.mem_map.mp ht
  exact h.tables T (List.mem_append_left _ hT)

theorem Listed.compact (h : Listed c e M D w ps q) {choice : Option (List ℕ)} {now : ℕ}
    (hc : Compacted e M D choice now e' M' D') (hs : SameMemory e e')
    (hv : e'.version.tables = e'.readers) : Listed c e' M' D' w ps q := by
  have hM' : ∀ T ∈ M', T.info.maxSeqno ≤ w := fun T hT =>
    (Manifest.le_maxSeqno (hc.holds.mem_manifest hT)).trans
      ((hc.maxSeqno_le h.holds).trans h.maxSeqno_le)
  refine ⟨hs.config.trans h.config, hs.closed.trans h.isOpen, hc.holds, hv, fun T hT => ?_,
    hs.wal ▸ h.counter, h.rest⟩
  rcases List.mem_append.mp hT with hM | hD
  · exact hM' T hM
  · rcases hc.readers with heq | heq
    · exact h.tables T (List.mem_append_right _ (heq ▸ hD))
    · exact hM' T (heq ▸ hD)

end

/-- What a store keeps between sessions that do not mix memtables in a segment. -/
inductive Stocked (c : Config) (e : Engine) : Prop
  | blocks {M D w ps q} (hb : Blocks e ps q) (hl : Listed c e M D w ps q)
  | spent {M D w done} (hs : Spent e done) (hl : Listed c e M D w [] [])

section
variable {c : Config} {e e' : Engine} {M D : List LiveTable} {w : ℕ}
  {ps : List (List Record)} {q : List Record}

theorem Listed.append (h : Listed c e M D w ps q) {r : Record} (hw : Writes e r e') :
    (∀ ps' q', (ps' = ps ∧ q' = q ++ [r]) ∨ (ps' = ps ++ [q ++ [r]] ∧ q' = []) →
      Listed c e' M D w ps' q') := by
  intro ps' q' hcases
  have hlt : w < r.seqno := by
    have := h.counter
    have := hw.fresh
    omega
  have hrest : ps' ≠ [] → ∀ a ∈ ps'.tail.flatten ++ q', w < a.seqno := by
    intro _ a ha
    have hnew : ps ≠ [] → a ∈ ps.tail.flatten ++ (q ++ [r]) → w < a.seqno := by
      intro hne ha
      rw [← List.append_assoc] at ha
      rcases List.mem_append.mp ha with ha | ha
      · exact h.rest hne a ha
      · exact List.mem_singleton.mp ha ▸ hlt
    rcases ps with _ | ⟨p, ps⟩ <;> rcases hcases with ⟨rfl, rfl⟩ | ⟨rfl, rfl⟩
    · contradiction
    · cases ha
    · exact hnew (List.cons_ne_nil _ _) ha
    · exact hnew (List.cons_ne_nil _ _) (by simpa using ha)
  obtain ⟨l, happ, hstate⟩ := hw.applied
  rcases hstate with ⟨-, rfl⟩ | ⟨-, l', hroll, rfl⟩
  · exact ⟨h.config, h.isOpen, h.holds.of_eq rfl rfl rfl rfl rfl, h.version, h.tables,
      hlt.le.trans happ.lastSeqno.ge, hrest⟩
  · exact ⟨h.config, h.isOpen, h.holds.of_eq rfl rfl rfl rfl rfl, rfl, h.tables,
      (hlt.le.trans happ.lastSeqno.ge).trans hroll.lastSeqno.ge, hrest⟩

theorem Stocked.write (h : Stocked c e) {del : Bool} {key value : Bytes}
    (hok : e.ensureWriteCapacity = .ok () →
      kMinPayload + key.length + value.length ≤ kMaxPayload ∧
      e.active.bytes < e.config.memtableMaxBytes ∧
      (e.wal.activeFile.data = [] ∨ e.active.entries ≠ 0)) :
    Stocked c (e.write del key value).1 := by
  have hintact : WalLog.Intact e.wal := by
    cases h with
    | blocks hb _ => exact hb.log
    | spent hs _ => exact hs.log
  rcases write_cases hintact del key value with ⟨x, heq⟩ | ⟨r, e', hdel, hkey, hvalue, hw, heq⟩
  · rw [heq]
    exact h
  rw [heq]
  obtain ⟨hcap, hbytes, hlast⟩ := hok hw.capacity
  cases h with
  | blocks hb hl =>
    rename_i M D w ps q
    have hfit : WalLog.Fits r := by
      rw [WalLog.Fits, payloadSize, hkey, hvalue]
      exact hcap
    have hfull : q ≠ [] → ¬e.config.Full q := fun _ => by
      rw [hb.active] at hbytes
      exact not_le.mpr hbytes
    have hq : e.wal.activeFile.data = [] ∨ q ≠ [] := by
      refine hlast.imp_right ?_
      rintro hentries rfl
      rw [hb.active] at hentries
      exact hentries rfl
    rcases hb.write hfit hw hfull hq with hnew | hnew
    · exact .blocks hnew (hl.append hw _ _ (.inl ⟨rfl, rfl⟩))
    · exact .blocks hnew (hl.append hw _ _ (.inr ⟨rfl, rfl⟩))
  | spent hs _ =>
    rcases hlast with hnil | hentries
    · exact absurd (hs.segment ▸ hnil) hs.nonempty
    · rw [hs.active] at hentries
      exact absurd rfl hentries

/-- A flush takes the first piece to the tables, and out of the log unless it is all there is. -/
theorem Blocks.flush (hb : Blocks e ps q) (hl : Listed c e M D w ps q) {target : Memtable}
    {T : LiveTable} (hf : Flushed e M D target T e') :
    ∃ p ps', ps = p :: ps' ∧
      (e.wal.activeFile.data = [] ∨ ps'.flatten ++ q ≠ [] →
        Blocks e' ps' q ∧ ∃ w', Listed c e' (T :: M) (T :: M) w' ps' q) ∧
      (¬(e.wal.activeFile.data = [] ∨ ps'.flatten ++ q ≠ []) → Stocked c e') := by
  obtain ⟨p, ps', rfl, rfl⟩ := hb.exists_oldest hf.oldest
  have hmax : T.info.maxSeqno = WalLog.maxSeqno p := hb.maxSeqno_of_oldest hf.rows
  have hwater : (e.manifest.addTable T.info).maxSeqno =
      max (WalLog.maxSeqno p) e.manifest.maxSeqno := by rw [addTable_maxSeqno, hmax]
  have hle : WalLog.maxSeqno p ≤ (e.manifest.addTable T.info).maxSeqno := by
    rw [hwater]
    exact le_max_left _ _
  have hrest : ∀ r ∈ ps'.flatten ++ q, max w (WalLog.maxSeqno p) < r.seqno := fun r hr =>
    max_lt (hl.rest (List.cons_ne_nil _ _) r hr) (hb.lt_of_rest hr)
  have hlt : ∀ r ∈ ps'.flatten ++ q, (e.manifest.addTable T.info).maxSeqno < r.seqno := by
    intro r hr
    have := hrest r hr
    have := hl.maxSeqno_le
    omega
  have hcounter := hb.maxSeqno_le List.mem_cons_self
  have hlisted : ∀ ps'' q'', (ps'' ≠ [] → ∀ r ∈ ps''.tail.flatten ++ q'',
      max w (WalLog.maxSeqno p) < r.seqno) →
      Listed c e' (T :: M) (T :: M) (max w (WalLog.maxSeqno p)) ps'' q'' := by
    intro ps'' q'' hrest
    obtain ⟨files, misindexed, heq⟩ := hf.eq
    refine ⟨?_, ?_, hf.holds, ?_, fun U hU => ?_, ?_, hrest⟩
    · rw [heq]
      exact hl.config
    · rw [heq]
      exact hl.isOpen
    · rw [heq]
    · rcases List.mem_cons.mp ((List.mem_append.mp hU).elim id id) with rfl | hU
      · exact hmax.le.trans (le_max_right _ _)
      · exact (hl.tables U (List.mem_append_left _ hU)).trans (le_max_left _ _)
    · rw [heq]
      show _ ≤ (e.wal.removeSegmentsCovered _).1.lastSeqno
      rw [(WalLog.isOpen_removeCovered _ _).2]
      exact max_le hl.counter hcounter
  obtain ⟨files, misindexed, heq⟩ := hf.eq
  have hsame : SameMemory { e with
      wal := (e.wal.removeSegmentsCovered (e.manifest.addTable T.info).maxSeqno).1
      immutables := e.immutables.dropLast } e' := by
    rw [heq]
    exact ⟨rfl, rfl, rfl, rfl, rfl, .inr rfl⟩
  refine ⟨p, ps', rfl, fun hlast => ⟨(hb.removeFirst hle hlt hlast).of_sameMemory hsame, _,
    hlisted ps' q (fun _ r hr => hrest r ?_)⟩, fun hlast => ?_⟩
  · rcases List.mem_append.mp hr with hr | hr
    · refine List.mem_append_left _ ?_
      obtain ⟨p', hp', hr⟩ := List.mem_flatten.mp hr
      exact List.mem_flatten.mpr ⟨p', List.mem_of_mem_tail hp', hr⟩
    · exact List.mem_append_right _ hr
  · obtain ⟨hactive, hnil⟩ := not_or.mp hlast
    obtain ⟨hps', rfl⟩ := List.append_eq_nil_iff.mp (not_not.mp hnil)
    obtain rfl : ps' = [] := by
      rcases ps' with _ | ⟨p', ps'⟩
      · rfl
      · rw [List.flatten_cons] at hps'
        exact absurd (List.append_eq_nil_iff.mp hps').1 (hb.fills p' (by simp)).nonempty
    exact .spent ((hb.spent hle hactive).of_sameMemory hsame)
      (hlisted [] [] (fun hne => absurd rfl hne))

theorem Listed.halfFlush (hb : Blocks e ps q) (hl : Listed c e M D w ps q) {target : Memtable}
    {T : LiveTable} (hf : HalfFlushed e M D target T e') :
    Blocks e' ps q ∧ ∃ w', Listed c e' (T :: M) D w' ps q := by
  obtain ⟨p, ps', rfl, rfl⟩ := hb.exists_oldest hf.oldest
  have hmax : T.info.maxSeqno = WalLog.maxSeqno p := hb.maxSeqno_of_oldest hf.rows
  have hcounter := hb.maxSeqno_le List.mem_cons_self
  have hholds := hf.holds
  obtain ⟨files, misindexed, rfl⟩ := hf.eq
  refine ⟨hb.of_sameMemory ⟨rfl, rfl, rfl, rfl, rfl, .inl rfl⟩, max w (WalLog.maxSeqno p),
    hl.config, hl.isOpen, hholds, hl.version, fun U hU => ?_, max_le hl.counter hcounter,
    fun hne r hr => max_lt (hl.rest hne r hr) (hb.lt_of_rest hr)⟩
  rw [List.cons_append] at hU
  rcases List.mem_cons.mp hU with rfl | hU
  · exact hmax.le.trans (le_max_right _ _)
  · exact (hl.tables U hU).trans (le_max_left _ _)

theorem Stocked.flushOne (h : Stocked c e) (now : ℕ) : Stocked c (e.flushOne now).1 := by
  have hkeep : (e.flushOne now).1 = e → Stocked c (e.flushOne now).1 := fun heq => heq.symm ▸ h
  cases h with
  | blocks hb hl =>
    rename_i M D w ps q
    rcases hl.holds.flushOne now with ⟨heq, -⟩ | ⟨target, T, hf, -⟩ | ⟨target, T, hf, -⟩
    · exact hkeep heq
    · obtain ⟨p, ps', -, hblocks, hspent⟩ := hb.flush hl hf
      by_cases hlast : e.wal.activeFile.data = [] ∨ ps'.flatten ++ q ≠ []
      · obtain ⟨hb', w', hl'⟩ := hblocks hlast
        exact .blocks hb' hl'
      · exact hspent hlast
    · obtain ⟨hb', w', hl'⟩ := hl.halfFlush hb hf
      exact .blocks hb' hl'
  | spent hs hl =>
    have hnone : ∀ target, e.immutables.getLast? ≠ some target := by
      rw [hs.immutables]
      exact nofun
    rcases hl.holds.flushOne now with ⟨heq, -⟩ | ⟨target, T, hf, -⟩ | ⟨target, T, hf, -⟩
    · exact hkeep heq
    · exact absurd hf.oldest (hnone target)
    · exact absurd hf.oldest (hnone target)

theorem Stocked.runCompaction (h : Stocked c e) (inputs : Option (List ℕ)) (now created : ℕ) :
    Stocked c (e.runCompaction inputs now created).1 := by
  have hkeep : (e.runCompaction inputs now created).1 = e →
      Stocked c (e.runCompaction inputs now created).1 := fun heq => heq.symm ▸ h
  cases h with
  | blocks hb hl =>
    rcases hl.holds.runCompaction hl.version inputs now created with
      heq | ⟨⟨M', D', hc⟩, hs, hv⟩
    · exact hkeep heq
    · exact .blocks (hb.of_sameMemory hs) (hl.compact hc hs hv)
  | spent hd hl =>
    rcases hl.holds.runCompaction hl.version inputs now created with
      heq | ⟨⟨M', D', hc⟩, hs, hv⟩
    · exact hkeep heq
    · exact .spent (hd.of_sameMemory hs) (hl.compact hc hs hv)

end

/-! ## Closing and opening -/

/-- A directory whose log is in pieces, all but the first newer than its tables. -/
structure Disk.Stocked (c : Config) (d : Disk) (ps : List (List Record)) (q : List Record) :
    Prop where
  blocks : d.Blocks c ps q
  listed : ∃ D w, d.Holds D ∧ (∀ T ∈ D, T.info.maxSeqno ≤ w) ∧
    (ps ≠ [] → ∀ r ∈ ps.tail.flatten ++ q, w < r.seqno)

section
variable {c : Config} {e : Engine} {M D : List LiveTable} {w : ℕ} {ps : List (List Record)}
  {q : List Record}

theorem Blocks.stocked_close (hb : Blocks e ps q) (hl : Listed c e M D w ps q) :
    e.close.disk.Stocked c ps q :=
  ⟨hl.config ▸ hb.close hl.isOpen, D, w, hl.holds.close,
    fun T hT => hl.tables T (List.mem_append_right _ hT), hl.rest⟩

theorem Spent.stocked_close {done : List Record} (hs : Spent e done)
    (hl : Listed c e M D w [] []) : e.close.disk.Stocked c [] done :=
  ⟨hl.config ▸ hs.close hl.isOpen, D, w, hl.holds.close,
    fun T hT => hl.tables T (List.mem_append_right _ hT), fun hne => absurd rfl hne⟩

theorem Stocked.close (h : Stocked c e) : ∃ ps q, e.close.disk.Stocked c ps q := by
  cases h with
  | blocks hb hl => exact ⟨_, _, hb.stocked_close hl⟩
  | spent hs hl => exact ⟨_, _, hs.stocked_close hl⟩

/-- Opening gives the pieces back, with the rest as one more if it is full and there is room. -/
theorem Disk.Stocked.open {d : Disk} (h : d.Stocked c ps q) (ho : Engine.open c d = .ok e) :
    ∃ M w, ((q ≠ [] → c.Full q → c.maxImmutableTables ≤ ps.length) ∧
        LsmKv.Blocks e ps q ∧ Listed c e M M w ps q) ∨
      ((q ≠ [] ∧ c.Full q ∧ ps.length < c.maxImmutableTables) ∧
        LsmKv.Blocks e (ps ++ [q]) [] ∧ Listed c e M M w (ps ++ [q]) []) := by
  obtain ⟨D, w, hD, hw, hrest⟩ := h.listed
  obtain ⟨M, hperm, hmap, hM⟩ := exists_loaded hD c
  obtain rfl := eq_of_open ho
  have hrec := recovers_recover c h.blocks.log h.blocks.fits h.blocks.increasing
  have hle : (Engine.loaded c d).recover.manifest.maxSeqno ≤ w := by
    refine Manifest.maxSeqno_le (fun t ht => ?_)
    rw [← hM.manifest] at ht
    obtain ⟨T, hT, rfl⟩ := List.mem_map.mp ht
    exact hw T (hperm.mem_iff.mp hT)
  have hlisted : ∀ ps' q', (ps' ≠ [] → ∀ r ∈ ps'.tail.flatten ++ q', w < r.seqno) →
      Listed c (Engine.loaded c d).recover M M (Engine.loaded c d).recover.manifest.maxSeqno
        ps' q' := by
    intro ps' q' hrest
    refine ⟨by rw [recover_eq]; rfl, by rw [recover_eq]; rfl, hM, by rw [recover_eq],
      fun T hT => Manifest.le_maxSeqno (hM.mem_manifest ((List.mem_append.mp hT).elim id id)), ?_,
      fun hne r hr => hle.trans_lt (hrest hne r hr)⟩
    rw [hrec.lastSeqno]
    exact le_max_right _ _
  refine ⟨M, (Engine.loaded c d).recover.manifest.maxSeqno, ?_⟩
  rcases h.blocks.open with ⟨hroom, hb⟩ | ⟨hdue, hb⟩
  · exact .inl ⟨hroom, hb, hlisted ps q hrest⟩
  · refine .inr ⟨hdue, hb, hlisted _ _ (fun _ r hr => ?_)⟩
    rcases ps with _ | ⟨p, ps⟩
    · cases hr
    · exact hrest (List.cons_ne_nil _ _) r (by simpa using hr)

theorem Disk.Stocked.stocked_open {d : Disk} (h : d.Stocked c ps q)
    (ho : Engine.open c d = .ok e) : LsmKv.Stocked c e := by
  obtain ⟨M, w, ⟨-, hb, hl⟩ | ⟨-, hb, hl⟩⟩ := h.open ho
  · exact .blocks hb hl
  · exact .blocks hb hl

/-! ## One session that flushes -/

theorem Blocks.flushAll (clock : ℕ → ℕ) (hq : q ≠ []) {rounds : ℕ} {e' : Engine}
    {results : List TableMeta} (hb : Blocks e ps q) (hl : Listed c e M D w ps q)
    (hrounds : ps.length ≤ rounds) (h : e.flushAll clock rounds = (e', .ok results)) :
    ∃ M' D' w', Blocks e' [] q ∧ Listed c e' M' D' w' [] q := by
  induction rounds generalizing e ps M D w results with
  | zero =>
    obtain rfl := List.length_eq_zero_iff.mp (Nat.le_zero.mp hrounds)
    obtain ⟨rfl, -⟩ := Prod.mk.inj h
    exact ⟨M, D, w, hb, hl⟩
  | succ rounds ih =>
    rw [Engine.flushAll] at h
    split at h
    · rename_i hnone
      have hlength := hb.length_immutables
      rw [hnone] at hlength
      obtain rfl := List.length_eq_zero_iff.mp hlength.symm
      obtain ⟨rfl, -⟩ := Prod.mk.inj h
      exact ⟨M, D, w, hb, hl⟩
    rename_i hsome
    rcases hl.holds.flushOne (clock rounds) with ⟨-, hfalse, htrue⟩ | ⟨target, T, hf, hres⟩ |
      ⟨target, T, -, hres⟩
    · rcases hflush : e.flushOne (clock rounds) with ⟨e₁, x | b⟩
      · rw [hflush] at h
        cases (Prod.mk.inj h).2
      · rw [hflush] at hfalse htrue
        cases b
        · exact absurd (hfalse rfl) hsome
        · exact absurd rfl htrue
    · rcases hflush : e.flushOne (clock rounds) with ⟨e₁, r⟩
      rw [hflush] at hf hres h
      obtain rfl : r = .ok true := hres
      obtain ⟨p, ps', rfl, hblocks, -⟩ := hb.flush hl hf
      obtain ⟨hb', w', hl'⟩ := hblocks (.inr (by simp [hq]))
      rcases hall : e₁.flushAll clock rounds with ⟨e₂, x | rest⟩
      · simp only [hall] at h
        cases (Prod.mk.inj h).2
      · simp only [hall] at h
        obtain ⟨rfl, -⟩ := Prod.mk.inj h
        exact ih hb' hl' (Nat.le_of_succ_le_succ hrounds) hall
    · rcases hflush : e.flushOne (clock rounds) with ⟨e₁, r⟩
      rw [hflush] at hres h
      obtain rfl : r = .error .json := hres
      cases (Prod.mk.inj h).2

/-- Flushing to the end leaves the log of the active memtable. -/
theorem Blocks.flushPending {flush_clock : ℕ → ℕ} {compact_clock : ℕ → ℕ × ℕ} (hq : q ≠ [])
    {e' : Engine} {results : List TableMeta} (hb : Blocks e ps q) (hl : Listed c e M D w ps q)
    (h : e.flushPending flush_clock compact_clock = (e', .ok results)) :
    ∃ M' D' w', Blocks e' [] q ∧ Listed c e' M' D' w' [] q := by
  rw [Engine.flushPending] at h
  split at h
  · cases (Prod.mk.inj h).2
  rcases hall : e.flushAll flush_clock e.immutables.length with ⟨e₁, x | rest⟩
  · rw [hall] at h
    cases (Prod.mk.inj h).2
  rw [hall] at h
  have hflushed := hb.flushAll flush_clock hq hl hb.length_immutables.ge hall
  have hauto : ∃ M' D' w', Blocks (e₁.maybeAutoCompact compact_clock).1 [] q ∧
      Listed c (e₁.maybeAutoCompact compact_clock).1 M' D' w' [] q := by
    rw [Engine.maybeAutoCompact]
    split
    · exact hflushed
    · refine (Engine.runs_autoCompactFrom _ _ _ e₁).invariant (P := fun e =>
        ∃ M' D' w', Blocks e [] q ∧ Listed c e M' D' w' [] q) ?_ hflushed
      rintro e call ⟨M, D, w, hb, hl⟩ hcall
      cases call with
      | put _ _ => cases hcall
      | remove _ => cases hcall
      | flushOne now =>
        have hkeep : e.perform (.flushOne now) = e := by
          show (e.flushOneAt none now).1 = e
          rw [Engine.flushOneAt, hb.immutables]
          rfl
        rw [hkeep]
        exact ⟨M, D, w, hb, hl⟩
      | runCompaction inputs now created =>
        rcases hl.holds.runCompaction hl.version inputs now created with
          heq | ⟨⟨M', D', hc⟩, hs, hv⟩
        · show ∃ M' D' w', Blocks (e.runCompaction inputs now created).1 [] q ∧
            Listed c (e.runCompaction inputs now created).1 M' D' w' [] q
          rw [heq]
          exact ⟨M, D, w, hb, hl⟩
        · exact ⟨M', D', w, hb.of_sameMemory hs, hl.compact hc hs hv⟩
  rcases hcompact : e₁.maybeAutoCompact compact_clock with ⟨e₂, x | u⟩
  · simp only [hcompact] at h
    cases (Prod.mk.inj h).2
  · rw [hcompact] at hauto
    simp only [hcompact] at h
    obtain ⟨rfl, -⟩ := Prod.mk.inj h
    exact hauto

theorem Stocked.clears (h : Stocked c e) (hbytes : 1 ≤ c.memtableMaxBytes)
    (hroom : 1 ≤ c.maxImmutableTables) : Clears e := by
  intro hstalled flush_clock compact_clock e₁ e₂ results e₃ hopen hflush hnext hagain
  obtain ⟨hfull, hqueue⟩ := hstalled.full
  have hempty : ∀ e' : Engine, e'.config = c → e'.active = c.memtable [] → e'.Stalled → False := by
    intro e' hconfig hactive hs
    have hle := hs.full.1
    rw [hconfig, hactive] at hle
    exact absurd hle (by show ¬_ ≤ 0; omega)
  cases h with
  | spent hs hl => exact hempty e hl.config (hl.config ▸ hs.active) hstalled
  | blocks hb hl =>
    rename_i M D w ps q
    have hq : q ≠ [] := by
      rintro rfl
      exact hempty e hl.config (hl.config ▸ hb.active) hstalled
    have hqfull : c.Full q := by
      rw [hb.active, hl.config] at hfull
      exact hfull
    rw [hl.config] at hopen hnext
    obtain ⟨M₁, w₁, ⟨-, hb₁, hl₁⟩ | ⟨⟨-, -, hlt⟩, -⟩⟩ := (hb.stocked_close hl).open hopen
    · obtain ⟨M₂, D₂, w₂, hb₂, hl₂⟩ := hb₁.flushPending hq hl₁ hflush
      obtain ⟨M₃, w₃, ⟨hdeferred, -⟩ | ⟨-, hb₃, hl₃⟩⟩ := (hb₂.stocked_close hl₂).open hnext
      · have := hdeferred hq hqfull
        rw [List.length_nil] at this
        omega
      · exact hempty e₃ hl₃.config (hl₃.config ▸ hb₃.active) hagain
    · rw [hb.length_immutables, hl.config] at hqueue
      omega

end

/-! ## Runs -/

def Host.Stocked (c : Config) : Host → Prop
  | .shut d => ∃ ps q, d.Stocked c ps q
  | .up e => LsmKv.Stocked c e

theorem stocked_step {c : Config} {s s' : Host} (h : s.Stocked c)
    (hs : Host.Proceeds (fun config => config = c) Unmixed s s') : s'.Stocked c := by
  cases hs with
  | «open» hc ho =>
    obtain ⟨ps, q, hd⟩ := h
    exact hd.stocked_open (hc ▸ ho)
  | call hc =>
    rename_i e call
    cases call with
    | put key value => exact h.write hc
    | remove key => exact h.write hc
    | flushOne now => exact h.flushOne now
    | runCompaction inputs now created => exact h.runCompaction inputs now created
  | close => exact h.close

/-- In sessions whose writes do not mix memtables in a segment, one session that flushes clears
backpressure. -/
theorem clears_of_unmixed (c : Config) (hbytes : 1 ≤ c.memtableMaxBytes)
    (hroom : 1 ≤ c.maxImmutableTables) {e : Engine}
    (hrun : Host.Sessions (fun config => config = c) Unmixed (.shut {}) (.up e)) : Clears e := by
  have hempty : Host.Stocked c (.shut {}) := by
    refine ⟨[], [], ⟨?_, ?_, .nil, rfl, nofun, Config.growing_nil, Nat.zero_le _, nofun⟩, [], 0,
      disk_holds_empty, nofun, fun hne => absurd rfl hne⟩
    · exact fun _ hp => nomatch hp
    · exact fun _ hr => nomatch hr
  have hstocked : Host.Stocked c (.up e) :=
    hrun.invariant (fun _ _ h hs => stocked_step h hs) hempty
  exact LsmKv.Stocked.clears hstocked hbytes hroom

/-- Of three puts the third is refused. -/
theorem clears_oneRow :
    let e := (Host.opened oneRow {}).performAll [.put [97] [1], .put [98] [2], .put [99] [3]]
    e.Stalled ∧ Clears e :=
  ⟨by decide +kernel, clears_of_unmixed oneRow (by decide) (by decide)
    (Host.sessions_session rfl (Host.open_of_map (by decide +kernel)) (by decide +kernel))⟩

/-- The first put of a session goes to the segment of a record that replay has put in an
immutable memtable; the two come back as two memtables for good. -/
def stuckRows : Engine :=
  (Host.opened oneRow (Host.after {} [(oneRow, [.put [97] [1], .put [98] [2]]),
    (oneRow, [.flushOne 5])])).performAll [.put [99] [3]]

theorem not_clears_stuckRows :
    Host.Sessions (fun config => config = oneRow) (fun _ _ => True) (.shut {}) (.up stuckRows) ∧
      ¬Clears stuckRows := by
  refine ⟨.trans (Host.sessions_after ?_ ?_)
    (Host.sessions_session rfl (Host.open_of_map ?_) ?_), fun h => ?_⟩
  · simp
  · decide +kernel
  · decide +kernel
  · decide +kernel
  · have hflush : ∃ results, ((Host.opened oneRow stuckRows.close.disk).flushPending
        (fun _ => 5) (fun _ => (5, 5))).2 = .ok results := by
      rcases hres : ((Host.opened oneRow stuckRows.close.disk).flushPending
        (fun _ => 5) (fun _ => (5, 5))).2 with x | results
      · have hok : ((Host.opened oneRow stuckRows.close.disk).flushPending
          (fun _ => 5) (fun _ => (5, 5))).2.isOk = true := by decide +kernel
        rw [hres] at hok
        cases hok
      · exact ⟨results, rfl⟩
    obtain ⟨results, hresults⟩ := hflush
    refine h (by decide +kernel) (fun _ => 5) (fun _ => (5, 5))
      (Host.opened oneRow stuckRows.close.disk) _ results (Host.opened oneRow
        ((Host.opened oneRow stuckRows.close.disk).flushPending
          (fun _ => 5) (fun _ => (5, 5))).1.close.disk)
      (Host.open_of_map (by decide +kernel)) (Prod.ext rfl hresults)
      (Host.open_of_map (by decide +kernel)) (by decide +kernel)

end LsmKv
