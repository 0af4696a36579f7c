import LsmKv.EngineOpen
import LsmKv.MemtableBytes
import LsmKv.Threads

/-!
# Backpressure bounds memory

A write that is let in finds room in the active memtable or in the queue. Only writes fill
either, so each memtable gets past the limit by one write, and by one more where a rotation
was put off.
-/

namespace LsmKv
open Sst (TableMeta)

/-- What a record adds to the count of a memtable. -/
def Config.footprint (c : Config) (r : Record) : ℕ :=
  r.key.length + r.value.length + c.overheadBytesPerEntry

/-- The largest of the writes. -/
def Config.largest (c : Config) (rs : List Record) : ℕ :=
  rs.foldl (fun n r => max n (c.footprint r)) 0

theorem Config.largest_snoc (c : Config) (rs : List Record) (r : Record) :
    c.largest (rs ++ [r]) = max (c.largest rs) (c.footprint r) := by
  rw [largest, List.foldl_append]
  rfl

theorem Config.footprint_le_largest (c : Config) {rs : List Record} {r : Record} (h : r ∈ rs) :
    c.footprint r ≤ c.largest rs := by
  induction rs using List.reverseRecOn with
  | nil => cases h
  | append_singleton rs a ih =>
    rw [largest_snoc]
    rcases List.mem_append.mp h with h | h
    · exact (ih h).trans (le_max_left _ _)
    · exact List.mem_singleton.mp h ▸ le_max_right _ _

theorem Config.bytes_memtable_snoc (c : Config) (q : List Record) (r : Record) :
    (c.memtable (q ++ [r])).bytes ≤ (c.memtable q).bytes + c.footprint r := by
  have hoverhead := (Memtable.bytes_ofRecords c.overheadBytesPerEntry q).1
  have hsize : ∀ value : Bytes, (c.memtable q).entrySize r.key value =
      r.key.length + value.length + c.overheadBytesPerEntry := by
    intro value
    rw [Memtable.entrySize]
    exact congrArg (r.key.length + value.length + ·) hoverhead
  rw [c.memtable_snoc, Memtable.applyRecord, Memtable.apply]
  split
  · show (c.memtable q).bytes - _ + _ ≤ _
    rw [hsize r.value, footprint]
    omega
  · show (c.memtable q).bytes + _ ≤ _
    rw [hsize r.value, footprint]

/-! ## The invariant -/

section
variable {c : Config} {s s' : Threads}

/-- The active memtable between two writes. -/
def Low (c : Config) (e : Engine) (A : List Record) : Prop :=
  e.active.bytes = 0 ∨ e.active.bytes < c.memtableMaxBytes + c.largest A

/-- What the capacity check established. -/
def Admits (c : Config) (e : Engine) (A : List Record) : Prop :=
  e.active.bytes < c.memtableMaxBytes ∨
    (e.immutables.length < c.maxImmutableTables ∧ Low c e A)

/-- The room there is where the writer stands. -/
def Writer.Room (c : Config) (e : Engine) (A : List Record) : Writer → Prop
  | .idle => Low c e A
  | .stalled _ key _ => key ≠ [] ∧ Low c e A
  | .admitted _ key _ => key ≠ [] ∧ Admits c e A
  | .numbered r | .written r | .logged r => r.key ≠ [] ∧ Admits c e A
  | .applied _ => e.active.bytes < c.memtableMaxBytes + c.largest A ∨
      (e.immutables.length < c.maxImmutableTables ∧
        e.active.bytes < c.memtableMaxBytes + 2 * c.largest A)

/-- No write is between its capacity check and its return. -/
def Writer.Outside : Writer → Prop
  | .idle | .stalled .. => True
  | _ => False

instance : (w : Writer) → Decidable w.Outside
  | .idle | .stalled .. => inferInstanceAs (Decidable True)
  | .admitted .. | .numbered _ | .written _ | .logged _ | .applied _ =>
    inferInstanceAs (Decidable False)

structure Roomy (c : Config) (s : Threads) : Prop where
  config : s.engine.config = c
  active : ∃ q, s.engine.active = c.memtable q
  queue : s.engine.immutables.length ≤ c.maxImmutableTables
  immutables : ∀ m ∈ s.engine.immutables,
    m.bytes < c.memtableMaxBytes + 2 * c.largest s.applied
  keys : ∀ r ∈ s.applied, r.key ≠ []
  untouched : s.applied = [] → s.engine.active.bytes = 0
  room : s.writer.Room c s.engine s.applied

/-! ## Steps that are no writes -/

/-- Of the memtables only the oldest immutables may have gone. -/
structure Leaves (s s' : Threads) : Prop where
  writer : s'.writer = s.writer
  applied : s'.applied = s.applied
  config : s'.engine.config = s.engine.config
  active : s'.engine.active = s.engine.active
  immutables : s'.engine.immutables <+: s.engine.immutables

theorem Low.leaves {e e' : Engine} {A : List Record} (h : Low c e A)
    (hactive : e'.active = e.active) : Low c e' A := by
  rw [Low, hactive]
  exact h

theorem Admits.leaves {e e' : Engine} {A : List Record} (h : Admits c e A)
    (hactive : e'.active = e.active) (himm : e'.immutables <+: e.immutables) :
    Admits c e' A := by
  rcases h with h | ⟨hroom, hlow⟩
  · exact .inl (hactive ▸ h)
  · exact .inr ⟨himm.length_le.trans_lt hroom, hlow.leaves hactive⟩

theorem Roomy.leaves (h : Roomy c s) (hs : Leaves s s') : Roomy c s' := by
  refine ⟨hs.config.trans h.config, hs.active ▸ h.active, hs.immutables.length_le.trans h.queue,
    fun m hm => hs.applied ▸ h.immutables m (hs.immutables.subset hm), hs.applied ▸ h.keys,
    fun hnone => hs.active ▸ h.untouched (hs.applied ▸ hnone), ?_⟩
  have hroom := h.room
  rw [hs.writer, hs.applied]
  cases hw : s.writer with
  | idle =>
    rw [hw] at hroom
    exact Low.leaves hroom hs.active
  | stalled del key value =>
    rw [hw] at hroom
    exact ⟨hroom.1, Low.leaves hroom.2 hs.active⟩
  | admitted del key value =>
    rw [hw] at hroom
    exact ⟨hroom.1, hroom.2.leaves hs.active hs.immutables⟩
  | numbered r | written r | logged r =>
    rw [hw] at hroom
    exact ⟨hroom.1, hroom.2.leaves hs.active hs.immutables⟩
  | applied r =>
    rw [hw] at hroom
    show s'.engine.active.bytes < _ ∨ (s'.engine.immutables.length < _ ∧ s'.engine.active.bytes < _)
    rw [hs.active]
    exact hroom.imp_right (fun hr => ⟨hs.immutables.length_le.trans_lt hr.1, hr.2⟩)

/-- The steps of the writer. -/
def Action.IsWrite : Action → Prop
  | .submit .. | .resume | .number | .write | .sync | .apply | .rotate => True
  | _ => False

theorem Leaves.refl (s : Threads) : Leaves s s := ⟨rfl, rfl, rfl, rfl, List.prefix_refl _⟩

theorem leaves_publish (h : s.publish = some s') : Leaves s s' := by
  obtain ⟨_, _, _, _, _, _, -, hprefix, -, rfl⟩ := Threads.publish_cases h
  exact ⟨rfl, rfl, rfl, rfl, hprefix⟩

theorem leaves_step {a : Action} (ha : ¬a.IsWrite) (h : s.step a = some s') : Leaves s s' := by
  cases a with
  | submit | resume | number | write | sync | apply | rotate => exact absurd trivial ha
  | publish => exact leaves_publish h
  | flush | compact | merge | name | temp | rename | watermark | remove | nextSegment | nextInput
  | unlink | load | consult =>
    simp only [Threads.step, Threads.flush, Threads.compact, Threads.merge, Threads.name,
      Threads.temp, Threads.rename, Threads.watermark, Threads.remove, Threads.nextSegment,
      Threads.nextInput, Threads.unlink, Threads.load, Threads.consult] at h
    repeat' split at h
    all_goals first
      | (obtain rfl := Option.some.inj h
         exact ⟨rfl, rfl, rfl, rfl, List.prefix_refl _⟩)
      | cases h

/-! ## Writes -/

theorem Roomy.submit (h : Roomy c s) {waits del : Bool} {key value : Bytes}
    (hs : s.submit waits del key value = some s') : Roomy c s' := by
  obtain ⟨e, w, cr, gs, A, K, as⟩ := s
  cases w with
  | idle =>
    have hlow : Low c e A := h.room
    simp only [Threads.submit] at hs
    split at hs
    · obtain rfl := Option.some.inj hs
      exact h
    split at hs
    · obtain rfl := Option.some.inj hs
      exact h
    rename_i hkey
    split at hs
    · rename_i hcapacity
      obtain rfl := Option.some.inj hs
      refine ⟨h.config, h.active, h.queue, h.immutables, h.keys, h.untouched, hkey, ?_⟩
      have hconfig : e.config = c := h.config
      rw [Engine.ensureWriteCapacity, hconfig] at hcapacity
      split at hcapacity
      · cases hcapacity
      split at hcapacity
      · rename_i hroom
        exact hroom.imp_right (fun hr => ⟨hr, hlow⟩)
      · cases hcapacity
    split at hs
    · obtain rfl := Option.some.inj hs
      exact ⟨h.config, h.active, h.queue, h.immutables, h.keys, h.untouched, hkey, hlow⟩
    · obtain rfl := Option.some.inj hs
      exact h
  | _ => simp [Threads.submit] at hs

theorem Roomy.resume (h : Roomy c s) (hs : s.resume = some s') : Roomy c s' := by
  obtain ⟨e, w, cr, gs, A, K, as⟩ := s
  cases w with
  | stalled del key value =>
    have hconfig : e.config = c := h.config
    simp only [Threads.resume, hconfig] at hs
    split at hs
    · rename_i hroom
      obtain rfl := Option.some.inj hs
      exact ⟨h.config, h.active, h.queue, h.immutables, h.keys, h.untouched, h.room.1,
        .inr ⟨hroom, h.room.2⟩⟩
    · cases hs
  | _ => simp [Threads.resume] at hs

theorem Roomy.number (h : Roomy c s) (hs : s.number = some s') : Roomy c s' := by
  obtain ⟨e, w, cr, gs, A, K, as⟩ := s
  cases w with
  | admitted del key value =>
    obtain ⟨hkey, hadmits⟩ := h.room
    simp only [Threads.number] at hs
    split at hs
    · cases hs
    split at hs
    · obtain rfl := Option.some.inj hs
      refine ⟨h.config, h.active, h.queue, h.immutables, h.keys, h.untouched, ?_⟩
      rcases hadmits with hfits | ⟨-, hlow⟩
      · exact .inr (hfits.trans_le (Nat.le_add_right _ _))
      · exact hlow
    · obtain rfl := Option.some.inj hs
      exact ⟨h.config, h.active, h.queue, h.immutables, h.keys, h.untouched, hkey, hadmits⟩
  | _ => simp [Threads.number] at hs

theorem Roomy.write (h : Roomy c s) (hs : s.write = some s') : Roomy c s' := by
  obtain ⟨e, w, cr, gs, A, K, as⟩ := s
  cases w with
  | numbered r =>
    obtain rfl := Option.some.inj hs
    exact ⟨h.config, h.active, h.queue, h.immutables, h.keys, h.untouched, h.room⟩
  | _ => simp [Threads.write] at hs

theorem Roomy.sync (h : Roomy c s) (hs : s.sync = some s') : Roomy c s' := by
  obtain ⟨e, w, cr, gs, A, K, as⟩ := s
  cases w with
  | written r =>
    obtain rfl := Option.some.inj hs
    exact ⟨h.config, h.active, h.queue, h.immutables, h.keys, h.untouched, h.room⟩
  | _ => simp [Threads.sync] at hs

/-- The write goes past the limit, or past what an earlier one left. -/
theorem Roomy.apply (h : Roomy c s) (hs : s.apply = some s') : Roomy c s' := by
  obtain ⟨e, w, cr, gs, A, K, as⟩ := s
  cases w with
  | logged r =>
    obtain rfl := Option.some.inj hs
    obtain ⟨hkey, hadmits⟩ : r.key ≠ [] ∧ Admits c e A := h.room
    obtain ⟨q, hq⟩ : ∃ q, e.active = c.memtable q := h.active
    have hactive : (e.apply r).active = c.memtable (q ++ [r]) := by
      rw [c.memtable_snoc]
      exact congrArg (Memtable.applyRecord · r) hq
    have hgrows : (e.apply r).active.bytes ≤ e.active.bytes + c.footprint r := by
      rw [hactive]
      exact (c.bytes_memtable_snoc q r).trans_eq (by rw [← hq])
    have hlargest := c.largest_snoc A r
    have hpos : 0 < c.footprint r := by
      have := List.length_pos_of_ne_nil hkey
      rw [Config.footprint]
      omega
    refine ⟨h.config, ⟨_, hactive⟩, h.queue, fun m hm => ?_, fun a ha => ?_, fun hnone => ?_, ?_⟩
    · refine (h.immutables m hm).trans_le ?_
      show c.memtableMaxBytes + 2 * c.largest A ≤ c.memtableMaxBytes + 2 * c.largest (A ++ [r])
      omega
    · rcases List.mem_append.mp ha with ha | ha
      · exact h.keys a ha
      · exact List.mem_singleton.mp ha ▸ hkey
    · exact absurd hnone (by simp)
    · show (e.apply r).active.bytes < c.memtableMaxBytes + c.largest (A ++ [r]) ∨
        (e.immutables.length < c.maxImmutableTables ∧
          (e.apply r).active.bytes < c.memtableMaxBytes + 2 * c.largest (A ++ [r]))
      rcases hadmits with hfits | ⟨hroom, hzero | hlow⟩
      · exact .inl (by omega)
      · exact .inr ⟨hroom, by omega⟩
      · exact .inr ⟨hroom, by omega⟩
  | _ => simp [Threads.apply] at hs

theorem Roomy.rotate (h : Roomy c s) (hs : s.rotate = some s') : Roomy c s' := by
  obtain ⟨e, w, cr, gs, A, K, as⟩ := s
  cases w with
  | applied r =>
    have hconfig : e.config = c := h.config
    have hroom : e.active.bytes < c.memtableMaxBytes + c.largest A ∨
      (e.immutables.length < c.maxImmutableTables ∧
        e.active.bytes < c.memtableMaxBytes + 2 * c.largest A) := h.room
    simp only [Threads.rotate] at hs
    split at hs
    · rename_i hrotates
      split at hs
      · cases hs
      obtain rfl := Option.some.inj hs
      obtain ⟨hfull, hspace⟩ := of_decide_eq_true hrotates
      rw [hconfig] at hfull hspace
      have hrotate := Threads.maybeRotate_of_rotates hrotates
      refine ⟨?_, ⟨[], ?_⟩, ?_, ?_, h.keys, fun _ => ?_, .inl ?_⟩ <;> dsimp only <;> rw [hrotate]
      · exact hconfig
      · rw [← hconfig]
        rfl
      · exact hspace
      · refine List.forall_mem_cons.mpr ⟨?_, h.immutables⟩
        show e.active.bytes < c.memtableMaxBytes + 2 * c.largest A
        omega
      · rfl
      · rfl
    · rename_i hstays
      obtain rfl := Option.some.inj hs
      refine ⟨h.config, h.active, h.queue, h.immutables, h.keys, h.untouched, .inr ?_⟩
      show e.active.bytes < c.memtableMaxBytes + c.largest A
      rw [Bool.not_eq_true, Threads.rotates, hconfig, decide_eq_false_iff_not] at hstays
      omega
  | _ => simp [Threads.rotate] at hs

theorem Roomy.step (h : Roomy c s) {a : Action} (hs : s.step a = some s') : Roomy c s' := by
  cases a with
  | submit waits del key value => exact h.submit hs
  | resume => exact h.resume hs
  | number => exact h.number hs
  | write => exact h.write hs
  | sync => exact h.sync hs
  | apply => exact h.apply hs
  | rotate => exact h.rotate hs
  | _ => exact h.leaves (leaves_step (by simp [Action.IsWrite]) hs)

/-! ## Runs -/

/-- What memory holds between writes. -/
structure Bounded (c : Config) (s : Threads) : Prop where
  queue : s.engine.immutables.length ≤ c.maxImmutableTables
  counted : s.engine.active.bytes =
    (s.engine.active.map.entries.map (Memtable.rowSize c.overheadBytesPerEntry)).sum
  untouched : s.applied = [] → s.engine.active.bytes = 0
  active : s.applied ≠ [] → s.engine.active.bytes < c.memtableMaxBytes + c.largest s.applied
  immutables : ∀ m ∈ s.engine.immutables, m.bytes < c.memtableMaxBytes + 2 * c.largest s.applied

theorem Roomy.bounded (h : Roomy c s) (hout : s.writer.Outside) : Bounded c s := by
  obtain ⟨q, hq⟩ := h.active
  have hlow : Low c s.engine s.applied := by
    have hroom := h.room
    cases hw : s.writer with
    | idle =>
      rw [hw] at hroom
      exact hroom
    | stalled del key value =>
      rw [hw] at hroom
      exact hroom.2
    | _ => rw [hw] at hout; exact hout.elim
  refine ⟨h.queue, ?_, h.untouched, fun hsome => ?_, h.immutables⟩
  · rw [hq]
    exact (Memtable.bytes_ofRecords c.overheadBytesPerEntry q).2
  · rcases hlow with hzero | hlow
    · obtain ⟨r, hr⟩ := List.exists_mem_of_ne_nil _ hsome
      have hkey := List.length_pos_of_ne_nil (h.keys r hr)
      have hle := c.footprint_le_largest hr
      rw [Config.footprint] at hle
      omega
    · exact hlow

theorem roomy_start {e : Engine} (h : Engine.open c {} = .ok e) : Roomy c (.start e) := by
  obtain rfl := eq_of_open h
  have hrec : Recovers c {} (Engine.loaded c {}).recover :=
    recovers_recover c (fun _ hp => nomatch hp) (fun _ hr => nomatch hr) .nil
  have hactive : (Engine.loaded c {}).recover.active = c.memtable [] :=
    congrArg Memtables.active hrec.memtables
  have himm : (Engine.loaded c {}).recover.immutables = [] :=
    congrArg Memtables.immutables hrec.memtables
  have hempty : (Engine.loaded c {}).recover.active.bytes = 0 := by rw [hactive]; rfl
  refine ⟨by rw [Threads.start, recover_eq]; rfl, ⟨[], hactive⟩, ?_, ?_, nofun, fun _ => hempty,
    .inl hempty⟩
  · show (Engine.loaded c {}).recover.immutables.length ≤ _
    rw [himm]
    exact Nat.zero_le _
  · show ∀ m ∈ (Engine.loaded c {}).recover.immutables, _
    rw [himm]
    exact nofun

end

/-- The steps of a put that need not wait. -/
def putSteps (key value : Bytes) : List Action :=
  [.submit true false key value, .number, .write, .sync, .apply, .rotate]

end LsmKv
