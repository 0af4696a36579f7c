import LsmKv.AutoCompaction
import LsmKv.SeqnoRanges

/-!
# Tables that can be read back

What a flush or a compaction writes has to be found again: its bits per key by the next load of
the manifest, its blocks by every read. Both are settled when the table is written, so a run
whose outputs are sound never comes to a directory that does not open or a table that cannot be
read.
-/

namespace LsmKv
open Sst (TableMeta)

namespace Engine

/-- The table that a call writes. -/
def output (e : Engine) : Call → Option Memtable
  | .put _ _ | .remove _ => none
  | .flushOne _ => e.immutables.getLast?
  | .runCompaction inputs now _ =>
    (e.chooseInputs inputs).toOption.join.bind fun ids =>
      (e.scanInputs ids now).toOption.bind fun m => if m.1.entries = 0 then none else some m.1

/-- What a call writes has bits per key that are a number. -/
def OutputFinite (e : Engine) (c : Call) : Prop :=
  ∀ _ ∈ e.output c, e.config.bloomBitsPerKey.isFinite = true

/-- What a call writes has blocks whose sizes its index can hold. -/
def OutputIndexed (e : Engine) (c : Call) : Prop :=
  ∀ mem ∈ e.output c, Sst.cutsSize (e.config.sst mem.entries) mem = false

instance (e : Engine) (c : Call) : Decidable (OutputFinite e c) :=
  inferInstanceAs (Decidable (∀ _ ∈ _, _ = _))

instance (e : Engine) (c : Call) : Decidable (OutputIndexed e c) :=
  inferInstanceAs (Decidable (∀ _ ∈ _, _ = _))

/-- What a call writes can be read back. -/
def OutputReadable (e : Engine) (c : Call) : Prop := e.OutputFinite c ∧ e.OutputIndexed c

instance (e : Engine) (c : Call) : Decidable (OutputReadable e c) :=
  inferInstanceAs (Decidable (_ ∧ _))

end Engine

/-! ## What a call changes -/

theorem saveAt_stored (fault : Option SaveFault) (m : Manifest) (e : Engine) :
    (e.saveAt fault m).1.stored = e.stored ∨ (e.saveAt fault m).1.stored = some m := by
  rw [Engine.saveAt.eq_def]
  split
  · cases fault with
    | none => exact .inr rfl
    | some f => exact .inl rfl
  · exact .inl rfl

theorem publishFlushAt_stored (fault : Option SaveFault) (info : TableMeta) (e : Engine) :
    (e.publishFlushAt fault info).1.stored = e.stored ∨
      (e.publishFlushAt fault info).1.stored = some (e.manifest.addTable info) := by
  have hstored := saveAt_stored fault (e.manifest.addTable info) e
  rw [Engine.publishFlushAt]
  rcases hsave : e.saveAt fault (e.manifest.addTable info) with ⟨e₁, x | u⟩ <;>
    rw [hsave] at hstored <;> exact hstored

theorem publishCompactionAt_stored (fault : Option SaveFault) (ids : List ℕ)
    (added : Option TableMeta) (e : Engine) :
    (e.publishCompactionAt fault ids added).1.stored = e.stored ∨
      (e.publishCompactionAt fault ids added).1.stored =
        some (e.manifest.applyCompaction e.config.sort ids added) := by
  have hstored := saveAt_stored fault (e.manifest.applyCompaction e.config.sort ids added) e
  rw [Engine.publishCompactionAt]
  rcases hsave : e.saveAt fault (e.manifest.applyCompaction e.config.sort ids added) with
    ⟨e₁, x | u⟩ <;> rw [hsave] at hstored <;> exact hstored

/-- The tables after a call that may have written `mem`: those before it, and perhaps one of that
memtable. -/
structure Produces (e : Engine) (mem : Option Memtable) (e' : Engine) : Prop where
  config : e'.config = e.config
  tables : ∀ t ∈ e'.manifest.tables, t ∈ e.manifest.tables ∨
    mem.isSome ∧ t.bloomBitsPerKey = e.config.bloomBitsPerKey
  stored : e'.stored = e.stored ∨ e'.stored = some e'.manifest
  misindexed : e'.misindexed = e.misindexed ∨
    ∃ m ∈ mem, ∃ id, e'.misindexed = (e.placeFile id m).misindexed

theorem Produces.refl (e : Engine) (mem : Option Memtable) : Produces e mem e :=
  ⟨rfl, fun _ ht => .inl ht, .inl rfl, .inl rfl⟩

section
variable {e e' : Engine} {mem : Memtable}

theorem bitsPerKey_writeSstable {id : ℕ} {cfg : Sst.SstConfig} {r : Sst.SstBuildResult}
    {file : Bytes} (h : Sst.writeSstable id mem cfg = .ok (r, file)) :
    r.bloomBitsPerKey = cfg.bitsPerKey := by
  rw [Sst.writeSstable] at h
  split at h
  · cases h
  split at h
  · cases h
  · obtain ⟨rfl, -⟩ := Prod.mk.inj (Except.ok.inj h)
    rfl

theorem produces_write (e : Engine) (del : Bool) (key value : Bytes) :
    Produces e none (e.write del key value).1 := by
  have hs := sameTables_write del key value e
  exact ⟨hs.config, fun t ht => .inl (hs.manifest ▸ ht), .inl hs.stored, .inl hs.misindexed⟩

theorem produces_flushOne (e : Engine) (now : ℕ) :
    Produces e e.immutables.getLast? (e.flushOne now).1 := by
  rw [Engine.flushOne]
  rcases flushOneAt_cases none now e with ⟨-, heq⟩ | ⟨x, heq⟩ | ⟨target, r, hflushes, heq⟩
  · rw [heq]
    exact .refl e _
  · rw [heq]
    exact .refl e _
  obtain ⟨file, hwrite⟩ := hflushes.written
  have hbits : (r.toMeta now).bloomBitsPerKey = e.config.bloomBitsPerKey :=
    bitsPerKey_writeSstable hwrite
  have hstored := publishFlushAt_stored none (r.toMeta now) (e.placeFile r.id target)
  obtain ⟨stored, readers, immutables, version, -, hpub⟩ :=
    publishFlushAt_eq none (r.toMeta now) (e.placeFile r.id target)
  have hpublished : Produces e e.immutables.getLast?
      (Engine.publishFlushAt none (r.toMeta now) (e.placeFile r.id target)).1 := by
    rw [hpub] at hstored ⊢
    refine ⟨rfl, fun t ht => ?_, hstored, .inr ⟨target, hflushes.oldest, r.id, rfl⟩⟩
    rcases List.mem_cons.mp ht with rfl | ht
    · exact .inr ⟨by rw [hflushes.oldest]; rfl, hbits⟩
    · exact .inl ht
  rw [heq]
  rcases hres : Engine.publishFlushAt none (r.toMeta now) (e.placeFile r.id target) with
    ⟨e₁, x | u⟩ <;> rw [hres] at hpublished <;>
    exact ⟨hpublished.config, hpublished.tables, hpublished.stored, hpublished.misindexed⟩

/-- Publishing a compaction adds its output to the list. -/
theorem Produces.publishCompaction {added : Option TableMeta} {out : Option Memtable}
    (h : Produces e out e') (ids : List ℕ) (hmanifest : e'.manifest = e.manifest)
    (hstored : e'.stored = e.stored)
    (hadded : ∀ t ∈ added, out.isSome ∧ t.bloomBitsPerKey = e.config.bloomBitsPerKey) :
    Produces e out (e'.publishCompactionAt none ids added).1 := by
  have hsaved := publishCompactionAt_stored none ids added e'
  obtain ⟨stored, readers, version, hpub⟩ := publishCompactionAt_eq none ids added e'
  rw [hpub] at hsaved ⊢
  refine ⟨h.config, fun t ht => ?_, hsaved.imp_left (fun heq => heq.trans hstored), h.misindexed⟩
  have ht : t ∈ e'.config.sort.run
      (e'.manifest.tables.filter (fun t => t.id ∉ ids) ++ added.toList) := ht
  rw [TableSort.mem_run, hmanifest] at ht
  rcases List.mem_append.mp ht with ht | ht
  · exact .inl (List.mem_filter.mp ht).1
  · exact .inr (hadded t (Option.mem_toList.mp ht))

theorem produces_runCompaction (e : Engine) (inputs : Option (List ℕ)) (now created : ℕ) :
    Produces e (e.output (.runCompaction inputs now created))
      (e.runCompaction inputs now created).1 := by
  rw [Engine.runCompaction, Engine.runCompactionAt, Engine.output]
  split
  · exact .refl e _
  split
  · exact .refl e _
  · exact .refl e _
  rename_i ids hchoice
  split
  · exact .refl e _
  rename_i final merged keys_in hscan
  rw [hchoice, show (Except.ok (some ids) : Except Raised (Option (List ℕ))).toOption.join =
    some ids from rfl, Option.bind_some, hscan]
  rcases hwrite : e.writeOutput final created with x | ⟨e₁, added⟩
  · exact .refl e _
  dsimp only
  generalize hout : ((Except.ok (final, merged, keys_in) :
    Except Raised (Memtable × Memtable × ℕ)).toOption.bind
      fun m => if m.1.entries = 0 then none else some m.1) = out
  have hfinal : (if final.entries = 0 then none else some final) = out := hout
  -- the output is in place, and the list is as it was
  have hplaced : Produces e out e₁ ∧ e₁.manifest = e.manifest ∧ e₁.stored = e.stored ∧
      ∀ t ∈ added, out.isSome ∧ t.bloomBitsPerKey = e.config.bloomBitsPerKey := by
    rw [Engine.writeOutput] at hwrite
    split at hwrite
    · obtain ⟨rfl, rfl⟩ := Prod.mk.inj (Except.ok.inj hwrite)
      exact ⟨.refl e _, rfl, rfl, fun t ht => absurd ht (Option.not_mem_none t)⟩
    rename_i hne
    obtain rfl := (if_neg hne).symm.trans hfinal
    split at hwrite
    · cases hwrite
    rename_i e₂ r hfile
    obtain ⟨rfl, rfl⟩ := Prod.mk.inj (Except.ok.inj hwrite)
    rw [Engine.writeSstable] at hfile
    split at hfile
    · cases hfile
    rename_i r' file hbytes
    obtain ⟨rfl, rfl⟩ := Prod.mk.inj (Except.ok.inj hfile)
    refine ⟨⟨rfl, fun _ ht => .inl ht, .inl rfl, .inr ⟨final, rfl, r'.id, rfl⟩⟩, rfl, rfl,
      fun t ht => ?_⟩
    obtain rfl := Option.some.inj ht
    exact ⟨rfl, bitsPerKey_writeSstable hbytes⟩
  obtain ⟨hproduces, hmanifest, hstored, hadded⟩ := hplaced
  have hpublished := hproduces.publishCompaction ids hmanifest hstored hadded
  rcases hres : e₁.publishCompactionAt none ids added with ⟨e₂, x | removed⟩ <;>
    rw [hres] at hpublished
  · exact hpublished
  · obtain ⟨files, hdelete⟩ := deleteInputs_eq removed e₂
    dsimp only
    rw [hdelete]
    exact ⟨hpublished.config, hpublished.tables, hpublished.stored, hpublished.misindexed⟩

theorem produces_perform (e : Engine) (c : Call) : Produces e (e.output c) (e.perform c) := by
  cases c with
  | put key value => exact produces_write e false key value
  | remove key => exact produces_write e true key []
  | flushOne now => exact produces_flushOne e now
  | runCompaction inputs now created => exact produces_runCompaction e inputs now created

/-! ## Readable manifests -/

/-- The manifest in memory and the one in the file can be loaded. -/
structure Engine.FiniteBits (e : Engine) : Prop where
  memory : Manifest.readable (some e.manifest) = true
  stored : Manifest.readable e.stored = true

theorem readable_some {m : Manifest} : Manifest.readable (some m) = true ↔
    ∀ t ∈ m.tables, t.bloomBitsPerKey.isFinite = true := List.all_eq_true

theorem Engine.FiniteBits.perform (h : e.FiniteBits) {c : Call} (hc : e.OutputFinite c) :
    (e.perform c).FiniteBits := by
  have hp := produces_perform e c
  have hmemory : Manifest.readable (some (e.perform c).manifest) = true := by
    refine readable_some.mpr (fun t ht => ?_)
    rcases hp.tables t ht with ht | ⟨hsome, hbits⟩
    · exact readable_some.mp h.memory t ht
    · obtain ⟨m, hm⟩ := Option.isSome_iff_exists.mp hsome
      exact hbits ▸ hc m hm
  refine ⟨hmemory, ?_⟩
  rcases hp.stored with heq | heq <;> rw [heq]
  · exact h.stored
  · exact hmemory

/-- A table with such bits is published. -/
theorem Engine.FiniteBits.publishFlush (h : e.FiniteBits) (info : TableMeta)
    (hinfo : info.bloomBitsPerKey.isFinite = true) : (e.publishFlush info).1.FiniteBits := by
  have hmemory : Manifest.readable (some (e.manifest.addTable info)) = true :=
    readable_some.mpr (List.forall_mem_cons.mpr ⟨hinfo, readable_some.mp h.memory⟩)
  refine ⟨publishFlushAt_manifest none info e ▸ hmemory, ?_⟩
  rcases publishFlushAt_stored none info e with heq | heq <;>
    rw [Engine.publishFlush, heq]
  · exact h.stored
  · exact hmemory

theorem Engine.FiniteBits.publishCompaction (h : e.FiniteBits) (ids : List ℕ)
    {added : Option TableMeta} (hadded : ∀ t ∈ added, t.bloomBitsPerKey.isFinite = true) :
    (e.publishCompaction ids added).1.FiniteBits := by
  have hmemory : Manifest.readable
      (some (e.manifest.applyCompaction e.config.sort ids added)) = true := by
    refine readable_some.mpr (fun t ht => ?_)
    rw [Manifest.applyCompaction, TableSort.mem_run] at ht
    rcases List.mem_append.mp ht with ht | ht
    · exact readable_some.mp h.memory t (List.mem_filter.mp ht).1
    · exact hadded t (Option.mem_toList.mp ht)
  refine ⟨publishCompactionAt_manifest none ids added e ▸ hmemory, ?_⟩
  rcases publishCompactionAt_stored none ids added e with heq | heq <;>
    rw [Engine.publishCompaction, heq]
  · exact h.stored
  · exact hmemory

theorem readable_restore {sort : TableSort} {m : Option Manifest}
    (h : Manifest.readable m = true) :
    Manifest.readable (some (Manifest.restore sort m)) = true := by
  rcases m with _ | m
  · rfl
  · exact readable_some.mpr (fun t ht => readable_some.mp h t (sort.mem_run.mp ht))

theorem readable_of_open {config : Config} {d : Disk} (h : Engine.open config d = .ok e) :
    Manifest.readable d.manifest = true := by
  rw [Engine.open] at h
  split at h
  · cases h
  · rename_i m hload
    rw [Manifest.loadOrCreate] at hload
    split at hload
    · assumption
    · cases hload

theorem Engine.FiniteBits.of_open {config : Config} {d : Disk}
    (h : Engine.open config d = .ok e) : e.FiniteBits := by
  have hread := readable_of_open h
  obtain rfl := eq_of_open h
  rw [recover_eq]
  exact ⟨readable_restore hread, hread⟩

theorem Engine.FiniteBits.close (h : e.FiniteBits) :
    Manifest.readable e.close.disk.manifest = true := by
  rw [(disk_close e).1]
  exact h.stored

/-! ## Indexed blocks -/

theorem misindexed_open {config : Config} {d : Disk} (h : Engine.open config d = .ok e) :
    e.misindexed = d.misindexed := by
  obtain rfl := eq_of_open h
  rw [recover_eq]
  rfl

theorem misindexed_close : e.close.disk.misindexed = e.misindexed := by
  rw [Engine.close]
  split <;> rfl

theorem misindexed_perform (h : e.misindexed = []) {c : Call} (hc : e.OutputIndexed c) :
    (e.perform c).misindexed = [] := by
  rcases (produces_perform e c).misindexed with heq | ⟨m, hm, id, heq⟩
  · exact heq.trans h
  · rw [heq, Engine.placeFile, hc m hm, h]
    rfl

end

/-! ## Runs -/

/-- A directory whose manifest and tables can be read, or a store that is to leave such a one. -/
def Host.Loads : Host → Prop
  | .shut d => Manifest.readable d.manifest = true ∧ d.misindexed = []
  | .up e => e.FiniteBits ∧ e.misindexed = []

theorem Host.Loads.disk {e : Engine} (h : Host.Loads (.up e)) : Host.Loads (.shut e.disk) :=
  ⟨h.1.stored, h.2⟩

theorem bits_writeSstable {e e' : Engine} {mem : Memtable} {r : Sst.SstBuildResult}
    (h : e.writeSstable mem = .ok (e', r)) : r.bloomBitsPerKey = e.config.bloomBitsPerKey := by
  rw [Engine.writeSstable] at h
  split at h
  · cases h
  rename_i r' file hwrite
  obtain ⟨-, rfl⟩ := Prod.mk.inj (Except.ok.inj h)
  exact bitsPerKey_writeSstable hwrite

theorem Host.Loads.placeFile {e : Engine} (h : Host.Loads (.up e)) {mem : Memtable}
    (hmem : Sst.cutsSize (e.config.sst mem.entries) mem = false) (id : ℕ) :
    Host.Loads (.up (e.placeFile id mem)) := by
  refine ⟨⟨h.1.memory, h.1.stored⟩, ?_⟩
  show (if _ then _ else _) = _
  rw [hmem, h.2]
  rfl

theorem Host.Loads.write {e : Engine} (h : Host.Loads (.up e)) (del : Bool) (key value : Bytes) :
    Host.Loads (.up (e.write del key value).1) := by
  have hs := sameTables_write del key value e
  exact ⟨⟨hs.manifest ▸ h.1.memory, hs.stored ▸ h.1.stored⟩, hs.misindexed.trans h.2⟩

/-- A table is listed, in memory at least. -/
theorem Host.Loads.publishFlush {e : Engine} (h : Host.Loads (.up e)) (info : TableMeta)
    (hinfo : info.bloomBitsPerKey.isFinite = true) :
    Host.Loads (.up (e.publishFlush info).1) := by
  obtain ⟨_, _, _, _, -, heq⟩ := publishFlushAt_eq none info e
  exact ⟨h.1.publishFlush info hinfo, (congrArg Engine.misindexed heq).trans h.2⟩

theorem Host.Loads.publishCompaction {e : Engine} (h : Host.Loads (.up e)) (ids : List ℕ)
    {added : Option TableMeta} (hadded : ∀ t ∈ added, t.bloomBitsPerKey.isFinite = true) :
    Host.Loads (.up (e.publishCompaction ids added).1) := by
  obtain ⟨_, _, _, heq⟩ := publishCompactionAt_eq none ids added e
  exact ⟨h.1.publishCompaction ids hadded, (congrArg Engine.misindexed heq).trans h.2⟩

/-- The output of a compaction is in place, or there is none. -/
theorem Host.Loads.writeOutput {e e' : Engine} (h : Host.Loads (.up e))
    {inputs : Option (List ℕ)} {now created : ℕ}
    (hc : e.OutputReadable (.runCompaction inputs now created)) {ids : List ℕ}
    (hchoice : e.chooseInputs inputs = .ok (some ids)) {final : Memtable} {rest : Memtable × ℕ}
    (hscan : e.scanInputs ids now = .ok (final, rest)) {added : Option TableMeta}
    (hwrite : e.writeOutput final created = .ok (e', added)) :
    Host.Loads (.up e') ∧ ∀ t ∈ added, t.bloomBitsPerKey.isFinite = true := by
  rw [Engine.writeOutput] at hwrite
  split at hwrite
  · obtain ⟨rfl, rfl⟩ := Prod.mk.inj (Except.ok.inj hwrite)
    exact ⟨h, fun t ht => absurd ht (Option.not_mem_none t)⟩
  rename_i hne
  have hout : e.output (.runCompaction inputs now created) = some final := by
    rw [Engine.output, hchoice, show (Except.ok (some ids) : Except Raised
      (Option (List ℕ))).toOption.join = some ids from rfl, Option.bind_some, hscan]
    exact if_neg hne
  split at hwrite
  · cases hwrite
  rename_i placed r hfile
  obtain ⟨rfl, rfl⟩ := Prod.mk.inj (Except.ok.inj hwrite)
  have hbits := bits_writeSstable hfile
  obtain ⟨rfl, -⟩ := writeSstable_eq hfile created
  refine ⟨h.placeFile (hc.2 final hout) _, fun t ht => ?_⟩
  obtain rfl := Option.some.inj ht
  exact (congrArg Double.isFinite hbits).trans (hc.1 final hout)

theorem Disk.Crashes.loads {d₁ d₂ d : Disk} (hc : Disk.Crashes d₁ d₂ d)
    (h₁ : Host.Loads (.shut d₁)) (h₂ : Host.Loads (.shut d₂)) : Host.Loads (.shut d) := by
  obtain ⟨s, hs, hm, -⟩ := hc.tables
  refine ⟨?_, List.eq_nil_iff_forall_not_mem.mpr (fun id hid => ?_)⟩
  · rcases List.mem_pair.mp hs with rfl | rfl
    · exact hm ▸ h₁.1
    · exact hm ▸ h₂.1
  · rcases hc.misindexed id hid with hid | hid
    · exact List.not_mem_nil (h₁.2 ▸ hid)
    · exact List.not_mem_nil (h₂.2 ▸ hid)

theorem Host.Loads.step {opens : Config → Prop} {ok : Engine → Call → Prop}
    (hok : ∀ e c, ok e c → e.OutputReadable c) {s s' : Host} (h : s.Loads)
    (hs : Host.Step opens ok s s') : s'.Loads := by
  have hcall : ∀ {e : Engine} {c : Call}, Host.Loads (.up e) → ok e c →
      Host.Loads (.up (e.perform c)) := fun he hc =>
    ⟨he.1.perform (hok _ _ hc).1, misindexed_perform he.2 (hok _ _ hc).2⟩
  cases hs with
  | «open» hc ho => exact ⟨.of_open ho, (misindexed_open ho).trans h.2⟩
  | call hc => exact hcall h hc
  | close => exact ⟨h.1.close, misindexed_close.trans h.2⟩
  | crash hc hd =>
    exact hd.loads h.disk (hcall h hc).disk
  | crashOpen hd => exact hd.loads h h

theorem Host.loads_empty : Host.Loads (.shut {}) := ⟨rfl, rfl⟩

end LsmKv
