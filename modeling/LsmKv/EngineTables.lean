import LsmKv.LiveTables
import Mathlib.Data.List.Perm.Basic

/-!
# What the engine's blocks do to the live tables

`Holds e M D`: the manifest in memory lists `M`, the readers are on `D`, every file is in
place, ids are unique and the next one is free. One lemma for each block of the source, and
one for a whole compaction.
-/

namespace LsmKv
open Sst (TableMeta)
open OrderedMap

/-- A permuted image is the image of a permutation. -/
theorem exists_perm_map {α β : Type*} {f : α → β} {l : List α} {m : List β}
    (h : (l.map f).Perm m) : ∃ l' : List α, l'.Perm l ∧ l'.map f = m := by
  have hl : List.Forall₂ (fun a b => f a = b) l (l.map f) := by simp [List.forall₂_same]
  have hcomp : Relation.Comp (List.Forall₂ (fun a b => f a = b)) List.Perm l m := ⟨_, hl, h⟩
  rw [List.forall₂_comp_perm_eq_perm_comp_forall₂] at hcomp
  obtain ⟨l', hperm, hrel⟩ := hcomp
  refine ⟨l', hperm.symm, ?_⟩
  rw [← List.forall₂_eq_eq_eq, List.forall₂_map_left_iff]
  exact hrel

def Disk.storedTables (d : Disk) : List TableMeta := d.manifest.elim [] (·.tables)

/-- The tables a directory lists, in some order. -/
structure Disk.Holds (d : Disk) (D : List LiveTable) : Prop where
  stored : d.storedTables.Perm (D.map (·.info))
  files : ∀ T ∈ D, d.files.find? T.info.id = some T.rows
  inj : ∀ T ∈ D, ∀ U ∈ D, T.info.id = U.info.id → T = U
  nodup : D.Nodup

structure Holds (e : Engine) (M D : List LiveTable) : Prop where
  manifest : M.map (·.info) = e.manifest.tables
  readers : D.map (·.info) = e.readers
  files : ∀ T ∈ M ++ D, e.files.find? T.info.id = some T.rows
  fresh : ∀ T ∈ M ++ D, T.info.id < e.manifest.nextSstId
  inj : ∀ T ∈ M ++ D, ∀ U ∈ M ++ D, T.info.id = U.info.id → T = U
  nodup : M.Nodup ∧ D.Nodup
  stored : e.disk.storedTables.Perm e.readers
  clean : e.manifest.dumps e.config.isUtf8 = true → M = D

section
variable {e : Engine} {M D : List LiveTable}

/-- Nothing but the table set and the settings matters. -/
theorem Holds.of_eq (h : Holds e M D) {e' : Engine} (hm : e'.manifest = e.manifest)
    (hr : e'.readers = e.readers) (hf : e'.files = e.files) (hs : e'.stored = e.stored)
    (hc : e'.config = e.config) : Holds e' M D := by
  refine ⟨hm ▸ h.manifest, hr ▸ h.readers, hf ▸ h.files, hm ▸ h.fresh, h.inj, h.nodup, ?_, ?_⟩
  · rw [Disk.storedTables, Engine.disk, hs, hr]
    exact h.stored
  · rw [hm, hc]
    exact h.clean

theorem Holds.disk (h : Holds e M D) : e.disk.Holds D where
  stored := h.readers ▸ h.stored
  files T hT := h.files T (List.mem_append_right _ hT)
  inj T hT U hU := h.inj T (List.mem_append_right _ hT) U (List.mem_append_right _ hU)
  nodup := h.nodup.2

theorem Holds.mem_manifest (h : Holds e M D) {T : LiveTable} (hT : T ∈ M) :
    T.info ∈ e.manifest.tables := h.manifest ▸ List.mem_map_of_mem hT

/-! ## Reading -/

theorem findTables_eq {files : OrderedMap ℕ Rows} {ts : List LiveTable}
    (h : ∀ T ∈ ts, files.find? T.info.id = some T.rows) (key : Bytes) :
    Engine.findTables files key (ts.map (·.info)) = .ok (tableHit key ts) := by
  induction ts with
  | nil => rfl
  | cons T ts ih =>
    obtain ⟨hT, hts⟩ := List.forall_mem_cons.mp h
    rw [List.map_cons, Engine.findTables, hT, tableHit_cons]
    rcases hrow : T.rows.find? key with _ | hit
    · simp only [hrow]
      exact ih hts
    · simp only [hrow]
      rfl

theorem scanTables_eq {files : OrderedMap ℕ Rows} {ts : List LiveTable}
    (h : ∀ T ∈ ts, files.find? T.info.id = some T.rows) :
    Engine.scanTables files (ts.map (·.info)) = .ok (ts.map (·.rows)) := by
  induction ts with
  | nil => rfl
  | cons T ts ih =>
    obtain ⟨hT, hts⟩ := List.forall_mem_cons.mp h
    rw [List.map_cons, Engine.scanTables, hT, ih hts]
    rfl

/-- Where nothing is misindexed, a get reads the rows. -/
theorem readTables_nil (files : OrderedMap ℕ Rows) (key : Bytes) (ts : List TableMeta) :
    Engine.readTables [] files key ts = Engine.findTables files key ts := by
  induction ts with
  | nil => rfl
  | cons t ts ih =>
    rw [Engine.readTables, Engine.findTables, ih]
    rfl

theorem scanInputs_nil {e : Engine} (h : e.misindexed = []) (ids : List ℕ) (now : ℕ) :
    e.scanInputs ids now = e.mergeInputs ids now := by
  rw [Engine.scanInputs, h]
  rcases e.mergeInputs ids now with x | m
  · rfl
  · simp

/-- What is merged has been read. -/
theorem scanInputs_ok {ids : List ℕ} {now : ℕ} {e : Engine} {m : Memtable × Memtable × ℕ}
    (h : e.scanInputs ids now = .ok m) : e.mergeInputs ids now = .ok m := by
  rw [Engine.scanInputs] at h
  split at h
  · cases h
  rename_i m' hmerge
  split at h
  · cases h
  · rw [hmerge, Except.ok.inj h]

theorem scanInputs_error {ids : List ℕ} {now : ℕ} {e : Engine} {x : Raised}
    (h : e.scanInputs ids now = .error x) :
    e.mergeInputs ids now = .error x ∨ x = .error Engine.misread := by
  rw [Engine.scanInputs] at h
  split at h
  · rename_i y hmerge
    exact .inl (Except.error.inj h ▸ hmerge)
  split at h
  · exact .inr (Except.error.inj h).symm
  · cases h

theorem Holds.findTables (h : Holds e M D) (key : Bytes) :
    Engine.findTables e.files key e.readers = .ok (tableHit key D) :=
  h.readers ▸ findTables_eq (fun T hT => h.files T (List.mem_append_right _ hT)) key

/-! ## Writing a file -/

/-- A written file with its metadata is a table, under the id it was given. -/
theorem exists_liveTable {id : ℕ} {mem : Memtable} {cfg : Sst.SstConfig} {r : Sst.SstBuildResult}
    {file : Bytes} (h : Sst.writeSstable id mem cfg = .ok (r, file)) (created : ℕ) :
    r.id = id ∧ ∃ T : LiveTable, T.info = r.toMeta created ∧ T.rows = mem.map := by
  rw [Sst.writeSstable] at h
  split at h
  · cases h
  rename_i first rest hrows
  split at h
  · cases h
  have hne : mem.map.entries ≠ [] := by rw [hrows]; exact List.cons_ne_nil _ _
  obtain ⟨rfl, -⟩ := Prod.mk.inj (Except.ok.inj h)
  have hmax := Sst.isGreatest_maxSeqno cfg hne
  have hkeys := Sst.isGreatest_maxKey cfg hne
  obtain ⟨last, hlast, hlastKey⟩ := hkeys.1
  refine ⟨rfl, ⟨⟨id, _, _, _, _, _, _, _, _, _⟩, mem.map, ?_, ?_, ?_, ?_, ?_⟩, rfl, rfl⟩
  · exact hmax.1
  · exact fun p hp => hmax.2 ⟨p, hp, rfl⟩
  · intro p hp
    show (Sst.buildBlocks cfg mem).minSeqno ≤ _
    rw [(Sst.sums_buildBlocks cfg mem).minSeqno]
    exact (Sst.foldl_min_le _ _).2 p hp
  · intro n hn hrows
    show n ≤ (Sst.buildBlocks cfg mem).minSeqno
    rw [(Sst.sums_buildBlocks cfg mem).minSeqno]
    rcases Sst.foldl_min_mem mem.map.entries (2 ^ 64 - 1) with hmin | ⟨p, hp, hmin⟩
    · rw [hmin]
      omega
    · exact hmin ▸ hrows p hp
  · exact ⟨first, by rw [hrows]; exact List.mem_cons_self, last, hlast, rfl, hlastKey⟩

theorem writeSstable_eq {mem : Memtable} {e' : Engine} {r : Sst.SstBuildResult}
    (h : e.writeSstable mem = .ok (e', r)) (created : ℕ) :
    e' = e.placeFile e.manifest.nextSstId mem ∧
      ∃ T : LiveTable, T.info = r.toMeta created ∧ T.rows = mem.map ∧
        T.info.id = e.manifest.nextSstId := by
  rw [Engine.writeSstable] at h
  split at h
  · cases h
  rename_i r' file hwrite
  obtain ⟨rfl, rfl⟩ := Prod.mk.inj (Except.ok.inj h)
  obtain ⟨hid, T, hinfo, hrows⟩ := exists_liveTable hwrite created
  refine ⟨by rw [hid], T, hinfo, hrows, ?_⟩
  rw [hinfo]
  exact hid

theorem Holds.write (h : Holds e M D) (mem : Memtable) :
    Holds (e.placeFile e.manifest.nextSstId mem) M D := by
  refine ⟨h.manifest, h.readers, fun T hT => ?_, h.fresh, h.inj, h.nodup, h.stored, h.clean⟩
  show (e.files.insert e.manifest.nextSstId mem.map).find? T.info.id = _
  rw [find?_insert_of_ne _ _ (h.fresh T hT).ne']
  exact h.files T hT

/-! ## Publishing -/

/-- The tables a manifest edit adds one of, whose file is there under the free id. -/
structure Adds (e : Engine) (T : LiveTable) : Prop where
  id : T.info.id = e.manifest.nextSstId
  file : e.files.find? T.info.id = some T.rows

theorem Holds.not_mem_of_adds (h : Holds e M D) {T : LiveTable} (hT : Adds e T) : T ∉ M ++ D :=
  fun hmem => (h.fresh T hmem).ne hT.id

/-- A manifest edit that leaves `M'`: tables of `M`, and perhaps one whose file was written. -/
structure Edit (e : Engine) (M : List LiveTable) (m : Manifest) (out : Option LiveTable)
    (M' : List LiveTable) : Prop where
  tables : M'.map (·.info) = m.tables
  next : e.manifest.nextSstId ≤ m.nextSstId
  added : ∀ T ∈ out, Adds e T ∧ T.info.id < m.nextSstId
  from_ : ∀ T ∈ M', T ∈ M ∨ T ∈ out
  nodup : M'.Nodup

theorem Edit.inj {m : Manifest} {out : Option LiveTable} {M' : List LiveTable}
    (hm : Edit e M m out M') (h : Holds e M D) {T U : LiveTable} (hT : T ∈ M' ++ D)
    (hU : U ∈ M' ++ D) (hi : T.info.id = U.info.id) : T = U := by
  have hcases : ∀ V ∈ M' ++ D, V ∈ M ++ D ∨ V ∈ out := by
    intro V hV
    rcases List.mem_append.mp hV with hV | hV
    · exact (hm.from_ V hV).imp_left (List.mem_append_left _)
    · exact .inl (List.mem_append_right _ hV)
  rcases hcases T hT with hT | hT <;> rcases hcases U hU with hU | hU
  · exact h.inj T hT U hU hi
  · exact absurd (hi.trans (hm.added U hU).1.id) (h.fresh T hT).ne
  · exact absurd (hi.symm.trans (hm.added T hT).1.id) (h.fresh U hU).ne
  · exact Option.mem_unique hT hU

theorem Edit.holds_memory {m : Manifest} {out : Option LiveTable} {M' : List LiveTable}
    (hm : Edit e M m out M') (h : Holds e M D) :
    (∀ T ∈ M' ++ D, e.files.find? T.info.id = some T.rows) ∧
      ∀ T ∈ M' ++ D, T.info.id < m.nextSstId := by
  refine ⟨fun T hT => ?_, fun T hT => ?_⟩ <;> rcases List.mem_append.mp hT with hT | hT
  · rcases hm.from_ T hT with hT | hT
    · exact h.files T (List.mem_append_left _ hT)
    · exact (hm.added T hT).1.file
  · exact h.files T (List.mem_append_right _ hT)
  · rcases hm.from_ T hT with hT | hT
    · exact (h.fresh T (List.mem_append_left _ hT)).trans_le hm.next
    · exact (hm.added T hT).2
  · exact (h.fresh T (List.mem_append_right _ hT)).trans_le hm.next

/-- The edit in memory when the manifest could not be written. -/
theorem Edit.failed {m : Manifest} {out : Option LiveTable} {M' : List LiveTable}
    (hm : Edit e M m out M') (h : Holds e M D) (hd : ¬m.dumps e.config.isUtf8 = true) :
    Holds { e with manifest := m } M' D where
  manifest := hm.tables
  readers := h.readers
  files := (hm.holds_memory h).1
  fresh := (hm.holds_memory h).2
  inj _ hT _ hU := hm.inj h hT hU
  nodup := ⟨hm.nodup, h.nodup.2⟩
  stored := h.stored
  clean hd' := absurd hd' hd

/-- The edit once the manifest is written and the readers follow it. -/
theorem Edit.saved {m : Manifest} {out : Option LiveTable} {M' : List LiveTable}
    (hm : Edit e M m out M') (h : Holds e M D) {e' : Engine} (he : e'.manifest = m)
    (hr : e'.readers = m.tables) (hf : e'.files = e.files) (hs : e'.stored = some m) :
    Holds e' M' M' where
  manifest := he ▸ hm.tables
  readers := hr ▸ hm.tables
  files T hT := by
    rw [hf]
    exact (hm.holds_memory h).1 T (List.mem_append_left _ (List.mem_append.mp hT |>.elim id id))
  fresh T hT := by
    rw [he]
    exact (hm.holds_memory h).2 T (List.mem_append_left _ (List.mem_append.mp hT |>.elim id id))
  inj T hT U hU := hm.inj h
    (List.mem_append_left _ (List.mem_append.mp hT |>.elim id id))
    (List.mem_append_left _ (List.mem_append.mp hU |>.elim id id))
  nodup := ⟨hm.nodup, hm.nodup⟩
  stored := by
    rw [hr, Disk.storedTables, Engine.disk, hs]
    exact List.Perm.refl _
  clean _ := rfl

/-! ## A flush -/

/-- The table a flush writes: of the oldest immutable, under the next id. -/
structure Flushes (e : Engine) (target : Memtable) (r : Sst.SstBuildResult) : Prop where
  oldest : e.immutables.getLast? = some target
  written : ∃ file, Sst.writeSstable e.manifest.nextSstId target
    (e.config.sst target.entries) = .ok (r, file)

theorem Flushes.id {target : Memtable} {r : Sst.SstBuildResult} (h : Flushes e target r) :
    r.id = e.manifest.nextSstId := by
  obtain ⟨file, hwrite⟩ := h.written
  exact (exists_liveTable hwrite 0).1

/-- A flush finds nothing to do, cannot write its table, or gets to publishing it. -/
theorem flushOneAt_cases (fault : Option SaveFault) (now : ℕ) (e : Engine) :
    (e.immutables = [] ∧ e.flushOneAt fault now = (e, .ok false)) ∨
    (∃ x, e.flushOneAt fault now = (e, .error (.fault x))) ∨
    ∃ target r, Flushes e target r ∧ e.flushOneAt fault now =
      match Engine.publishFlushAt fault (r.toMeta now) (e.placeFile r.id target) with
      | (e, .error x) => (e, .error x)
      | (e, .ok _) => (e.removeCovered, .ok true) := by
  rw [Engine.flushOneAt]
  rcases htarget : e.immutables.getLast? with _ | target
  · exact .inl ⟨List.getLast?_eq_none_iff.mp htarget, rfl⟩
  · simp only [Engine.writeSstable]
    rcases hw : Sst.writeSstable e.manifest.nextSstId target (e.config.sst target.entries) with
      x | ⟨r, file⟩
    · exact .inr (.inl ⟨x, rfl⟩)
    · exact .inr (.inr ⟨target, r, ⟨htarget, file, hw⟩, rfl⟩)

/-- A save changes the manifest, in memory even where it fails. -/
theorem saveAt_eq (fault : Option SaveFault) (m : Manifest) (e : Engine) :
    ∃ stored, (e.saveAt fault m).1 = { e with manifest := m, stored := stored } := by
  rw [Engine.saveAt.eq_def]
  split
  · cases fault <;> exact ⟨_, rfl⟩
  · exact ⟨_, rfl⟩

/-- Publishing a flush edits the manifest, and perhaps the table set; of the memtables only an
immutable may go. -/
theorem publishFlushAt_eq (fault : Option SaveFault) (info : TableMeta) (e : Engine) :
    ∃ stored readers immutables version, immutables <+: e.immutables ∧
      (e.publishFlushAt fault info).1 = { e with
        manifest := e.manifest.addTable info
        stored := stored
        readers := readers
        immutables := immutables
        version := version } := by
  obtain ⟨stored, heq⟩ := saveAt_eq fault (e.manifest.addTable info) e
  rcases hsave : e.saveAt fault (e.manifest.addTable info) with ⟨e₁, x | u⟩
  · rw [hsave] at heq
    obtain rfl : e₁ = _ := heq
    rw [Engine.publishFlushAt, hsave]
    exact ⟨stored, _, _, _, List.prefix_refl _, rfl⟩
  · rw [hsave] at heq
    obtain rfl : e₁ = _ := heq
    rw [Engine.publishFlushAt, hsave]
    exact ⟨stored, _, _, _, List.dropLast_prefix _, rfl⟩

/-- Publishing a compaction edits the manifest, and perhaps the table set. -/
theorem publishCompactionAt_eq (fault : Option SaveFault) (ids : List ℕ)
    (added : Option TableMeta) (e : Engine) :
    ∃ stored readers version, (e.publishCompactionAt fault ids added).1 = { e with
      manifest := e.manifest.applyCompaction e.config.sort ids added
      stored := stored
      readers := readers
      version := version } := by
  obtain ⟨stored, heq⟩ := saveAt_eq fault (e.manifest.applyCompaction e.config.sort ids added) e
  rcases hsave : e.saveAt fault (e.manifest.applyCompaction e.config.sort ids added) with
    ⟨e₁, x | u⟩
  · rw [hsave] at heq
    obtain rfl : e₁ = _ := heq
    rw [Engine.publishCompactionAt, hsave]
    exact ⟨stored, _, _, rfl⟩
  · rw [hsave] at heq
    obtain rfl : e₁ = _ := heq
    rw [Engine.publishCompactionAt, hsave]
    exact ⟨stored, _, _, rfl⟩

theorem publishFlushAt_manifest (fault : Option SaveFault) (info : TableMeta) (e : Engine) :
    (e.publishFlushAt fault info).1.manifest = e.manifest.addTable info := by
  obtain ⟨stored, readers, immutables, version, -, heq⟩ := publishFlushAt_eq fault info e
  rw [heq]

theorem publishCompactionAt_manifest (fault : Option SaveFault) (ids : List ℕ)
    (added : Option TableMeta) (e : Engine) :
    (e.publishCompactionAt fault ids added).1.manifest =
      e.manifest.applyCompaction e.config.sort ids added := by
  obtain ⟨stored, readers, version, heq⟩ := publishCompactionAt_eq fault ids added e
  rw [heq]

theorem dumps_of_addTable {isUtf8 : Bytes → Bool} {info : TableMeta} {m : Manifest}
    (h : (m.addTable info).dumps isUtf8 = true) : m.dumps isUtf8 = true := by
  rw [Manifest.dumps, Manifest.addTable, List.all_cons, Bool.and_eq_true] at h
  exact h.2

theorem Adds.edit (h : Holds e M D) {T : LiveTable} (hT : Adds e T) :
    Edit e M (e.manifest.addTable T.info) (some T) (T :: M) where
  tables := congrArg (T.info :: ·) h.manifest
  next := le_max_left _ _
  added U hU := by
    obtain rfl := Option.some.inj hU
    exact ⟨hT, (Nat.lt_succ_self _).trans_le (le_max_right _ _)⟩
  from_ U hU := (List.mem_cons.mp hU).symm.imp_right (fun heq => congrArg some heq.symm)
  nodup := List.nodup_cons.mpr ⟨fun hmem => h.not_mem_of_adds hT (List.mem_append_left _ hmem),
    h.nodup.1⟩

/-- Publishing a flushed table: it is written down, and then nothing was pending in memory, or
only the manifest in memory is edited. -/
theorem Holds.publishFlush (h : Holds e M D) {T : LiveTable} (hT : Adds e T) :
    (M = D ∧ e.publishFlush T.info = ({ e with
        manifest := e.manifest.addTable T.info
        stored := some (e.manifest.addTable T.info)
        readers := T.info :: e.readers
        immutables := e.immutables.dropLast
        version := ⟨e.immutables.dropLast, T.info :: e.readers⟩ }, .ok ()) ∧
      Holds (e.publishFlush T.info).1 (T :: M) (T :: M)) ∨
    e.publishFlush T.info = ({ e with manifest := e.manifest.addTable T.info }, .error .json) ∧
      Holds (e.publishFlush T.info).1 (T :: M) D := by
  have hedit := hT.edit h
  rw [Engine.publishFlush, Engine.publishFlushAt, Engine.saveAt]
  by_cases hd : (e.manifest.addTable T.info).dumps e.config.isUtf8 = true
  · obtain rfl := h.clean (dumps_of_addTable hd)
    rw [if_pos hd]
    refine .inl ⟨rfl, rfl, hedit.saved h rfl ?_ rfl rfl⟩
    show T.info :: e.readers = T.info :: e.manifest.tables
    rw [← h.readers, h.manifest]
  · rw [if_neg hd]
    exact .inr ⟨rfl, hedit.failed h hd⟩

/-- A flush that ran to its end, with the table it put in front. -/
structure Flushed (e : Engine) (M D : List LiveTable) (target : Memtable) (T : LiveTable)
    (e' : Engine) : Prop where
  oldest : e.immutables.getLast? = some target
  rows : T.rows = target.map
  saved : M = D
  holds : Holds e' (T :: M) (T :: M)
  eq : ∃ files misindexed, e' = { e with
    files := files
    misindexed := misindexed
    manifest := e.manifest.addTable T.info
    stored := some (e.manifest.addTable T.info)
    readers := T.info :: e.readers
    immutables := e.immutables.dropLast
    version := ⟨e.immutables.dropLast, T.info :: e.readers⟩
    wal := (e.wal.removeSegmentsCovered (e.manifest.addTable T.info).maxSeqno).1 }

/-- A flush whose manifest could not be dumped. -/
structure HalfFlushed (e : Engine) (M D : List LiveTable) (target : Memtable) (T : LiveTable)
    (e' : Engine) : Prop where
  oldest : e.immutables.getLast? = some target
  rows : T.rows = target.map
  holds : Holds e' (T :: M) D
  eq : ∃ files misindexed, e' = { e with
    files := files
    misindexed := misindexed
    manifest := e.manifest.addTable T.info }

theorem Holds.flushOne (h : Holds e M D) (now : ℕ) :
    ((e.flushOne now).1 = e ∧ ((e.flushOne now).2 = .ok false → e.immutables = []) ∧
      (e.flushOne now).2 ≠ .ok true) ∨
    (∃ target T, Flushed e M D target T (e.flushOne now).1 ∧ (e.flushOne now).2 = .ok true) ∨
    ∃ target T, HalfFlushed e M D target T (e.flushOne now).1 ∧
      (e.flushOne now).2 = .error .json := by
  rw [Engine.flushOne]
  rcases flushOneAt_cases none now e with ⟨hnone, heq⟩ | ⟨x, heq⟩ | ⟨target, r, hflushes, heq⟩
  · rw [heq]
    exact .inl ⟨rfl, fun _ => hnone, nofun⟩
  · rw [heq]
    exact .inl ⟨rfl, nofun, nofun⟩
  obtain ⟨file, hwrite⟩ := hflushes.written
  obtain ⟨hid, T, hinfo, hrows⟩ := exists_liveTable hwrite now
  have hw := h.write target
  have hadds : Adds (e.placeFile e.manifest.nextSstId target) T := by
    have hTid : T.info.id = e.manifest.nextSstId := by rw [hinfo]; exact hid
    refine ⟨hTid, ?_⟩
    rw [hTid, hrows]
    exact find?_insert_self _ _ _
  right
  rw [heq, ← hinfo, hid]
  rcases hw.publishFlush hadds with ⟨hMD, hpub, hholds⟩ | ⟨hpub, hholds⟩
  · rw [Engine.publishFlush] at hpub hholds
    rw [hpub] at hholds ⊢
    exact .inl ⟨target, T, ⟨hflushes.oldest, hrows, hMD, hholds.of_eq rfl rfl rfl rfl rfl,
      _, _, rfl⟩, rfl⟩
  · rw [Engine.publishFlush] at hpub hholds
    rw [hpub] at hholds ⊢
    exact .inr ⟨target, T, ⟨hflushes.oldest, hrows, hholds, _, _, rfl⟩, rfl⟩

end

/-! ## Opening -/

theorem eq_of_open {config : Config} {d : Disk} {e : Engine} (h : Engine.open config d = .ok e) :
    e = (Engine.loaded config d).recover := by
  rw [Engine.open] at h
  split at h
  · cases h
  dsimp only at h
  split at h
  · exact (Except.ok.inj h).symm
  · cases h

end LsmKv
