import LsmKv.CrashedSessions
import LsmKv.ProcessThreads
import LsmKv.RefusedWrites

/-!
# The engine over bytes

The engine again, over log segments and table files kept byte by byte: what it appends is framed,
what it flushes and merges is laid out in blocks, and what it reads it has to find in the bytes.
It does what the engine over records and rows does that the bytes stand for.
-/

namespace LsmKv
open Sst (TableMeta SstBuildResult Fault Images Bounds)
open WalFormat OrderedMap

/-- A directory at rest, with the bytes of its segments and of its table files. -/
structure ByteDisk where
  wal : OrderedMap ℕ (DurableFile UInt8) := ∅
  manifest : Option Manifest := none
  files : OrderedMap ℕ Bytes := ∅
  temps : List ℕ := []
  paused : Bool := false

/-- An open store over bytes. Neither the log nor the rows of `engine` are used. -/
structure ByteEngine extends ByteStore where
  files : OrderedMap ℕ Bytes

namespace ByteEngine

def disk (s : ByteEngine) : ByteDisk :=
  ⟨s.log.dir, s.engine.stored, s.files, s.engine.temps, s.engine.paused⟩

/-! ## Writing -/

def write (append_cut roll_cut : Wal.Cut) (del : Bool) (key value : Bytes) (s : ByteEngine) :
    ByteEngine × Except Error ℕ :=
  ({ s with toByteStore := (s.toByteStore.write append_cut roll_cut del key value).1 },
    (s.toByteStore.write append_cut roll_cut del key value).2)

/-! ## Reading -/

/-- `TableReader::get` of each table in turn, none of them with anything cached. -/
def findTables (files : OrderedMap ℕ Bytes) (key : Bytes) :
    List TableMeta → Except Raised (Option MemEntry)
  | [] => .ok none
  | t :: ts => match Sst.plainGet (files.find? t.id) t key with
    | .error f => .error (.fault f)
    | .ok (some hit) => .ok (some hit)
    | .ok none => findTables files key ts

def get (key : Bytes) (s : ByteEngine) : Except Raised (Option Bytes) :=
  match s.engine.ensureOpen with
  | .error x => .error (.error x)
  | .ok _ =>
    if key = [] then .error (.error ⟨.invalidArgument, "empty key is not allowed"⟩)
    else match s.engine.active.find key with
      | some hit => .ok hit.result
      | none => match Engine.findMemtables key s.engine.version.immutables with
        | some hit => .ok hit.result
        | none => match findTables s.files key s.engine.version.tables with
          | .error x => .error x
          | .ok hit => .ok (hit.bind MemEntry.result)

/-! ## Flushing -/

def writeSstable (mem : Memtable) (s : ByteEngine) : Except Raised (ByteEngine × SstBuildResult) :=
  match Sst.writeSstable s.engine.manifest.nextSstId mem (s.engine.config.sst mem.entries) with
  | .error f => .error (.fault f)
  | .ok (r, file) => .ok ({ s with files := s.files.insert r.id file }, r)

def flushOne (now : ℕ) (s : ByteEngine) : ByteEngine × Except Raised Bool :=
  match s.engine.immutables.getLast? with
  | none => (s, .ok false)
  | some target => match s.writeSstable target with
    | .error x => (s, .error x)
    | .ok (s, r) => match s.engine.publishFlush (r.toMeta now) with
      | (e, .error x) => ({ s with engine := e }, .error x)
      | (e, .ok _) => ({ s with
          engine := e
          log := (s.log.removeSegmentsCovered e.manifest.maxSeqno).1 }, .ok true)

/-! ## Compacting -/

/-- The rows the output is to hold. -/
def mergeInputs (ids : List ℕ) (now : ℕ) (s : ByteEngine) : Except Fault Memtable :=
  match Process.scanAll s.files (s.engine.inputMeta ids) with
  | .error f => .error f
  | .ok rows => .ok (Memtable.finalTable s.engine.config.overheadBytesPerEntry
      (s.engine.drops ids now) (Process.mergeRows s.engine.config.overheadBytesPerEntry rows))

def writeOutput (final : Memtable) (created : ℕ) (s : ByteEngine) :
    Except Raised (ByteEngine × Option TableMeta) :=
  if final.entries = 0 then .ok (s, none)
  else match s.writeSstable final with
    | .error x => .error x
    | .ok (s, r) => .ok (s, some (r.toMeta created))

/-- An input's file goes if no version refers to it. -/
def deleteInput (s : ByteEngine) (r : TableMeta) : ByteEngine :=
  if s.engine.version.tables.any (fun t => t.id = r.id) then s
  else { s with files := s.files.erase r.id }

/-- `run_compaction`, with the inputs of a job that ran to its end. -/
def runCompaction (inputs : Option (List ℕ)) (now created : ℕ) (s : ByteEngine) :
    ByteEngine × Except Raised (Option (List ℕ)) :=
  match s.engine.ensureOpen with
  | .error x => (s, .error (.error x))
  | .ok _ => match s.engine.chooseInputs inputs with
    | .error x => (s, .error x)
    | .ok none => (s, .ok none)
    | .ok (some ids) => match s.mergeInputs ids now with
      | .error f => (s, .error (.fault f))
      | .ok final => match s.writeOutput final created with
        | .error x => (s, .error x)
        | .ok (s, added) => match s.engine.publishCompaction ids added with
          | (e, .error x) => ({ s with engine := e }, .error x)
          | (e, .ok removed) => (removed.foldl deleteInput { s with engine := e }, .ok (some ids))

/-! ## Calls -/

def perform (s : ByteEngine) : Call → ByteEngine
  | .put key value => (s.write .never .never false key value).1
  | .remove key => (s.write .never .never true key []).1
  | .flushOne now => (s.flushOne now).1
  | .runCompaction inputs now created => (s.runCompaction inputs now created).1

/-- The record of a write that is let in. -/
def accepted (s : ByteEngine) : Call → Option Record
  | .put key value => (s.write .never .never false key value).2.toOption.map
      (fun n => ⟨false, key, value, n⟩)
  | .remove key => (s.write .never .never true key []).2.toOption.map
      (fun n => ⟨true, key, [], n⟩)
  | .flushOne _ | .runCompaction .. => none

/-! ## Opening and closing -/

/-- The engine with the manifest loaded, which did not throw. -/
def loaded (config : Config) (d : ByteDisk) : Engine :=
  Engine.loaded config { manifest := d.manifest, paused := d.paused }

/-- The table files that `open` keeps. -/
def listed (config : Config) (d : ByteDisk) : OrderedMap ℕ Bytes :=
  d.files.filter (fun id _ => (loaded config d).manifest.tables.any (fun t => t.id = id))

def «open» (config : Config) (d : ByteDisk) : Except Raised ByteEngine :=
  match Manifest.loadOrCreate config.sort d.manifest with
  | .error x => .error (.error x)
  | .ok _ =>
    match Process.openReaders (listed config d) false (loaded config d).manifest.tables with
    | .error x => .error x
    | .ok _ =>
      match (Wal.create d.wal config.walFsyncEveryN config.walSegmentRollBytes).open .never with
      | (_, .error x) => .error (.error x)
      | (log, .ok (_, replayed)) => .ok {
          engine := (replayed.foldl (Engine.applyMutation true) (loaded config d)).publishVersion
          log := log.bumpSeqno (loaded config d).manifest.maxSeqno
          files := listed config d }

def close (s : ByteEngine) : ByteEngine :=
  if s.engine.closed then s
  else { s with engine := { s.engine with closed := true }, log := s.log.close }

end ByteEngine

/-! ## What goes into tables and memtables -/

/-- A row the log let in. -/
structure StorableRow (key : Bytes) (row : MemEntry) : Prop where
  nonempty : key ≠ []
  key : key.length ≤ kMaxPayload
  value : row.value.length ≤ kMaxPayload
  seqno : row.seqno < 2 ^ 64

def Storable (rows : Rows) : Prop := ∀ key row, rows.find? key = some row → StorableRow key row

/-- A record that the scanner reads back and whose row can be stored. -/
structure StorableRecord (r : Record) : Prop where
  readable : Readable r
  nonempty : r.key ≠ []

theorem StorableRecord.row {r : Record} (h : StorableRecord r) : StorableRow r.key r.row := by
  have hsize := h.readable.size
  rw [payloadSize] at hsize
  exact ⟨h.nonempty, by omega, show r.value.length ≤ kMaxPayload by omega, h.readable.seqno⟩

theorem storable_empty : Storable ∅ := nofun

theorem Storable.insert {rows : Rows} (h : Storable rows) {key : Bytes} {row : MemEntry}
    (hrow : StorableRow key row) : Storable (rows.insert key row) := by
  intro k r hr
  rw [find?_insert] at hr
  split at hr
  · rename_i heq
    obtain rfl := Option.some.inj hr
    exact heq ▸ hrow
  · exact h k r hr

theorem Storable.applyRecord {m : Memtable} (h : Storable m.map) {r : Record}
    (hr : StorableRecord r) : Storable (m.applyRecord r).map := by
  rw [Memtable.applyRecord, Memtable.map_apply]
  exact h.insert hr.row

/-- The rows of a merge are rows of its inputs. -/
theorem storable_finalTable {overhead : ℕ} {drops : MemEntry → Bool} {rows : List Rows}
    (h : ∀ r ∈ rows, Storable r) :
    Storable (Memtable.finalTable overhead drops (Memtable.merged overhead rows)).map := by
  intro key row hrow
  rw [Memtable.map_finalTable, find?_filter, Memtable.map_merged, find?_overlay,
    Option.filter_eq_some_iff] at hrow
  obtain ⟨upper, hit, lower, hsplit, hfind, -⟩ := firstHit_eq_some hrow.1
  exact h hit (by rw [hsplit]; simp) key row hfind

theorem Storable.acceptedRows {mem : Memtable} (h : Storable mem.map) : Sst.AcceptedRows mem :=
  fun e he =>
    have hrow := h e.1 e.2 (find?_eq_some_iff.mpr he)
    ⟨hrow.nonempty, hrow.key, hrow.value⟩

/-- A table of these rows fits its fields, and its bits per key are a number. -/
structure FileFits (config : Config) (mem : Memtable) : Prop where
  finite : config.bloomBitsPerKey.isFinite = true
  sized : (config.sst mem.entries).Sized
  short : (Sst.tableBytes (config.sst mem.entries) mem).length < 2 ^ 63

theorem FileFits.indexed {config : Config} {mem : Memtable} (h : FileFits config mem)
    (hrows : Storable mem.map) : Sst.cutsSize (config.sst mem.entries) mem = false :=
  List.any_eq_false.mpr (fun b hb => by
    simpa using Sst.length_blocks_lt hrows.acceptedRows h.sized.blockSize b hb)

theorem images_of_storable {config : Config} {mem : Memtable} (hfits : FileFits config mem)
    (hrows : Storable mem.map) {id : ℕ} {r : SstBuildResult} {file : Bytes}
    (h : Sst.writeSstable id mem (config.sst mem.entries) = .ok (r, file)) :
    Images file mem.map := by
  obtain ⟨-, -, rfl⟩ := Sst.writeSstable_eq_ok h
  exact Sst.images_writeSstable h hfits.sized hrows.acceptedRows
    (fun e he => (hrows e.1 e.2 (find?_eq_some_iff.mpr he)).seqno) hfits.short

/-- Everything in the store could be stored and can be read back, and the metadata of each table
bounds its keys. -/
structure Engine.Storable (e : Engine) : Prop where
  loads : Host.Loads (.up e)
  records : ∀ r ∈ WalLog.records e.wal.dir, StorableRecord r
  memtables : ∀ m ∈ e.active :: e.immutables, LsmKv.Storable m.map
  files : ∀ id rows, e.files.find? id = some rows → LsmKv.Storable rows
  bounds : ∀ t ∈ e.manifest.tables ++ e.readers, ∀ rows, e.files.find? t.id = some rows →
    Bounds t rows

structure Disk.Storable (d : Disk) : Prop where
  loads : Host.Loads (.shut d)
  records : ∀ r ∈ WalLog.records d.wal, StorableRecord r
  files : ∀ id rows, d.files.find? id = some rows → LsmKv.Storable rows
  bounds : ∀ t ∈ d.storedTables, ∀ rows, d.files.find? t.id = some rows → Bounds t rows

theorem Engine.Storable.disk {e : Engine} (h : e.Storable) {M D : List LiveTable}
    (hh : Holds e M D) : e.disk.Storable :=
  ⟨h.loads.disk, h.records, h.files, fun t ht => h.bounds t
    (List.mem_append_right _ (hh.stored.mem_iff.mp ht))⟩

/-! ## What the bytes stand for -/

/-- The engine with another log and other files. -/
def Engine.swap (w : Wal Record) (files : OrderedMap ℕ Rows) (e : Engine) : Engine :=
  { e with wal := w, files := files }

/-- The store over bytes is where the one over records and rows is. -/
structure ByteEngine.Renders (s : ByteEngine) (e : Engine) : Prop where
  engine : ∃ w files, s.engine = e.swap w files
  log : s.log = render e.wal
  files : ∀ id, Option.Rel Images (s.files.find? id) (e.files.find? id)

section
variable {s : ByteEngine} {e e' : Engine} {M D : List LiveTable}

/-- Whatever reads neither the log nor the files is the same in the two. -/
theorem ByteEngine.Renders.same {β : Type*} (h : s.Renders e) (f : Engine → β)
    (hf : ∀ w files, f (e.swap w files) = f e) : f s.engine = f e := by
  obtain ⟨w, files, heng⟩ := h.engine
  rw [heng, hf]

theorem ByteEngine.Renders.config (h : s.Renders e) : s.engine.config = e.config :=
  h.same (·.config) (fun _ _ => rfl)

theorem ByteEngine.Renders.manifest (h : s.Renders e) : s.engine.manifest = e.manifest :=
  h.same (·.manifest) (fun _ _ => rfl)

theorem ByteEngine.Renders.active (h : s.Renders e) : s.engine.active = e.active :=
  h.same (·.active) (fun _ _ => rfl)

theorem ByteEngine.Renders.immutables (h : s.Renders e) : s.engine.immutables = e.immutables :=
  h.same (·.immutables) (fun _ _ => rfl)

theorem ByteEngine.Renders.version (h : s.Renders e) : s.engine.version = e.version :=
  h.same (·.version) (fun _ _ => rfl)

theorem ByteEngine.Renders.ensureOpen (h : s.Renders e) : s.engine.ensureOpen = e.ensureOpen :=
  h.same (·.ensureOpen) (fun _ _ => rfl)

theorem ByteEngine.Renders.ensureWriteCapacity (h : s.Renders e) :
    s.engine.ensureWriteCapacity = e.ensureWriteCapacity :=
  h.same (·.ensureWriteCapacity) (fun _ _ => rfl)

theorem ByteEngine.Renders.chooseInputs (h : s.Renders e) (choice : Option (List ℕ)) :
    s.engine.chooseInputs choice = e.chooseInputs choice :=
  h.same (·.chooseInputs choice) (fun _ _ => rfl)

theorem ByteEngine.Renders.inputMeta (h : s.Renders e) (ids : List ℕ) :
    s.engine.inputMeta ids = e.inputMeta ids :=
  h.same (·.inputMeta ids) (fun _ _ => rfl)

theorem ByteEngine.Renders.drops (h : s.Renders e) (ids : List ℕ) (now : ℕ) :
    s.engine.drops ids now = e.drops ids now :=
  h.same (·.drops ids now) (fun _ _ => rfl)

/-! ## Reads -/

theorem findTables_images {files : OrderedMap ℕ Bytes} {rows : OrderedMap ℕ Rows}
    (hfiles : ∀ id, Option.Rel Images (files.find? id) (rows.find? id)) {ts : List TableMeta}
    (hbounds : ∀ t ∈ ts, ∀ r, rows.find? t.id = some r → Bounds t r) (key : Bytes)
    {hit : Option MemEntry} (h : Engine.findTables rows key ts = .ok hit) :
    ByteEngine.findTables files key ts = .ok hit := by
  induction ts with
  | nil =>
    obtain rfl := Except.ok.inj h
    rfl
  | cons t ts ih =>
    obtain ⟨ht, hts⟩ := List.forall_mem_cons.mp hbounds
    rw [Engine.findTables] at h
    have hfile := hfiles t.id
    rcases hrows : rows.find? t.id with _ | r <;> rw [hrows] at h hfile
    · cases h
    rcases hbytes : files.find? t.id with _ | file <;> rw [hbytes] at hfile
    · cases hfile
    have himage := Option.rel_some_some.mp hfile
    rw [ByteEngine.findTables, hbytes, himage.plainGet (ht r hrows)]
    dsimp only at h ⊢
    rcases hrow : r.find? key with _ | row <;> rw [hrow] at h
    · exact ih hts h
    · obtain rfl := Except.ok.inj h
      rfl

theorem ByteEngine.Renders.get (h : s.Renders e) (hst : e.Storable) (hopen : e.closed = false)
    (hversion : e.version.tables = e.readers) {key : Bytes} (hkey : key ≠ [])
    {hit : Option MemEntry}
    (hfind : Engine.findTables e.files key e.readers = .ok hit) {v : Option Bytes}
    (hget : e.get key = .ok v) : s.get key = .ok v := by
  have hensure : e.ensureOpen = .ok () := by rw [Engine.ensureOpen, hopen]; rfl
  have hensure' : s.engine.ensureOpen = .ok () := h.ensureOpen.trans hensure
  have hbytes : ByteEngine.findTables s.files key e.readers = .ok hit :=
    findTables_images h.files (fun t ht => hst.bounds t (List.mem_append_right _ ht)) key hfind
  rw [ByteEngine.get, hensure', h.active, h.version, hversion]
  rw [Engine.get, hensure, hversion] at hget
  simp only [if_neg hkey] at hget ⊢
  rcases hmem : e.active.find key with _ | row <;> rw [hmem] at hget
  · rcases himm : Engine.findMemtables key e.version.immutables with _ | row <;> rw [himm] at hget
    · rw [hbytes]
      change (do
        return (← Engine.readTables e.misindexed e.files key e.readers).bind MemEntry.result) =
          Except.ok v at hget
      rw [hst.loads.2, readTables_nil, hfind] at hget
      obtain rfl := Except.ok.inj hget
      rfl
    · obtain rfl := Except.ok.inj hget
      rfl
  · obtain rfl := Except.ok.inj hget
    rfl

/-! ## Writes -/

section
variable {del : Bool} {key value : Bytes}

theorem checkWrite_cases (key value : Bytes) (e : Engine) :
    (∃ x, e.checkWrite key value = .error x ∧ (e.ensureOpen = .error x ∨
      e.ensureOpen = .ok () ∧ (key = [] ∧ x = ⟨.invalidArgument, "empty key is not allowed"⟩ ∨
        key ≠ [] ∧ (e.ensureWriteCapacity = .error x ∨ e.ensureWriteCapacity = .ok () ∧
          Wal.checkAppend e.wal.isOpen key value = .error x)))) ∨
    e.checkWrite key value = .ok () ∧ e.ensureOpen = .ok () ∧ key ≠ [] ∧
      e.ensureWriteCapacity = .ok () ∧ Wal.checkAppend e.wal.isOpen key value = .ok () := by
  rw [Engine.checkWrite]
  rcases e.ensureOpen with x | u
  · exact .inl ⟨x, rfl, .inl rfl⟩
  by_cases hkey : key = []
  · exact .inl ⟨_, by rw [if_pos hkey]; rfl, .inr ⟨rfl, .inl ⟨hkey, rfl⟩⟩⟩
  rcases e.ensureWriteCapacity with x | u
  · exact .inl ⟨x, by rw [if_neg hkey]; rfl, .inr ⟨rfl, .inr ⟨hkey, .inl rfl⟩⟩⟩
  rcases Wal.checkAppend e.wal.isOpen key value with x | u
  · exact .inl ⟨x, by rw [if_neg hkey]; rfl, .inr ⟨rfl, .inr ⟨hkey, .inr ⟨rfl, rfl⟩⟩⟩⟩
  · exact .inr ⟨by rw [if_neg hkey]; rfl, rfl, hkey, rfl, rfl⟩

theorem checkWrite_ok {e : Engine} (h : e.checkWrite key value = .ok ()) :
    e.ensureOpen = .ok () ∧ key ≠ [] ∧ e.ensureWriteCapacity = .ok () ∧
      Wal.checkAppend e.wal.isOpen key value = .ok () := by
  rcases checkWrite_cases key value e with ⟨x, hx, -⟩ | ⟨-, hok⟩
  · cases h.symm.trans hx
  · exact hok

/-- A write that its checks turn down changes nothing. -/
theorem ByteEngine.Renders.write_refused (h : s.Renders e) {x : Error}
    (hcheck : e.checkWrite key value = .error x) (append_cut roll_cut : Wal.Cut) (del : Bool) :
    s.write append_cut roll_cut del key value = (s, .error x) := by
  have hstore : s.toByteStore.write append_cut roll_cut del key value =
      (s.toByteStore, .error x) := by
    rw [ByteStore.write, h.ensureOpen, h.ensureWriteCapacity]
    rcases checkWrite_cases key value e with ⟨y, hy, hwhy⟩ | ⟨hok, -⟩
    · obtain rfl := Except.error.inj (hcheck.symm.trans hy)
      rcases hwhy with ho | ⟨ho, ⟨hkey, rfl⟩ | ⟨hkey, hc | ⟨hc, happend⟩⟩⟩
      · rw [ho]
      · rw [ho]
        exact if_pos hkey
      · rw [ho, hc]
        exact if_neg hkey
      · have hrefuses : s.log.append append_cut del key value = (s.log, .error x) := by
          rw [h.log, Wal.append, render_isOpen, happend]
        rw [ho, hc, hrefuses]
        exact if_neg hkey
    · cases hcheck.symm.trans hok
  rw [ByteEngine.write, hstore]

/-- A write past its checks appends, and then rotates if that is due. -/
theorem ByteEngine.Renders.write_appends (h : s.Renders e)
    (hcheck : e.checkWrite key value = .ok ()) (append_cut roll_cut : Wal.Cut) (del : Bool) :
    s.toByteStore.write append_cut roll_cut del key value =
      match s.log.append append_cut del key value with
      | (log, .error x) => ({ s.toByteStore with log := log }, .error x)
      | (log, .ok seqno) =>
        match ByteStore.maybeRotate roll_cut
            ⟨s.engine.apply ⟨del, key, value, seqno⟩, log⟩ with
        | (t, .error x) => (t, .error x)
        | (t, .ok _) => (t, .ok seqno) := by
  obtain ⟨ho, hkey, hc, -⟩ := checkWrite_ok hcheck
  rw [ByteStore.write, h.ensureOpen, ho, h.ensureWriteCapacity, hc]
  exact if_neg hkey

theorem append_render_of_check {l : Wal Record} (hl : WalLog.Live l)
    (hroom : l.lastSeqno + 1 < 2 ^ 64) (hcheck : Wal.checkAppend l.isOpen key value = .ok ())
    (del : Bool) : (render l).append .never del key value =
      (render (WalLog.appendRecord ⟨del, key, value, l.lastSeqno + 1⟩
        (WalLog.makeRoom ⟨del, key, value, l.lastSeqno + 1⟩ l)), .ok (l.lastSeqno + 1)) := by
  obtain ⟨pre, f, hends, -⟩ := hl
  rw [append_render hends, Nat.mod_eq_of_lt hroom, WalLog.appendAs, hcheck]
  rfl

theorem live_makeRoom {l : Wal Record} (hl : WalLog.Live l) (r : Record) :
    WalLog.Live (WalLog.makeRoom r l) := by
  rw [WalLog.makeRoom]
  split
  · exact hl.rollSegment
  · exact hl

theorem isOpen_makeRoom {l : Wal Record} (ho : l.isOpen = true) (r : Record) :
    (WalLog.makeRoom r l).isOpen = true := by
  rw [WalLog.makeRoom]
  split
  · exact WalLog.rollSegment_isOpen l
  · exact ho

variable (del key value) in
theorem ByteEngine.Renders.write (h : s.Renders e) (hl : WalLog.Live e.wal)
    (hroom : e.wal.lastSeqno + 1 < 2 ^ 64) :
    (s.write .never .never del key value).1.Renders (e.write del key value).1 ∧
      (s.write .never .never del key value).2 = (e.write del key value).2 := by
  rcases write_eq del key value e with ⟨x, hcheck, heq⟩ | ⟨hcheck, heq⟩
  · rw [heq, h.write_refused hcheck]
    exact ⟨h, rfl⟩
  obtain ⟨w, files, heng⟩ := h.engine
  obtain ⟨-, -, -, happend⟩ := checkWrite_ok hcheck
  have hlog := append_render_of_check hl hroom happend del
  rw [← h.log] at hlog
  set r : Record := e.nextRecord del key value
  have hr : (⟨del, key, value, e.wal.lastSeqno + 1⟩ : Record) = r := rfl
  rw [hr] at hlog
  set l : Wal Record := WalLog.appendRecord r (WalLog.makeRoom r e.wal)
  have hlive : WalLog.Live l := (live_makeRoom hl r).appendRecord r
  have hopen : l.isOpen = true :=
    (WalLog.appendRecord_isOpen r _).trans (isOpen_makeRoom (isOpen_of_checkAppend happend) r)
  rw [ByteEngine.write, h.write_appends hcheck, hlog, heq, heng]
  dsimp only
  rw [hr]
  by_cases hstay : (e.active.applyRecord r).bytes < e.config.memtableMaxBytes ∨
      e.config.maxImmutableTables ≤ e.immutables.length
  · have hstore : ByteStore.maybeRotate .never ⟨(e.swap w files).apply r, render l⟩ =
        (⟨(e.swap w files).apply r, render l⟩, .ok ()) := (ite_or _ _ _ _).symm.trans (if_pos hstay)
    have hengine : Engine.applyMutation false { e with wal := l } r =
        { e with wal := l, active := e.active.applyRecord r } :=
      (ite_or _ _ _ _).symm.trans (if_pos hstay)
    rw [hstore, hengine]
    exact ⟨⟨⟨w, files, rfl⟩, rfl, h.files⟩, rfl⟩
  · have hroll : (render l).roll .never =
        (render (WalLog.roll l).1, .ok (WalLog.rollSegment l).activeId) := by
      obtain ⟨pre, f, hends, -⟩ := hlive
      rw [roll_render hends, WalLog.roll, hopen]
      rfl
    have hstore : ByteStore.maybeRotate .never ⟨(e.swap w files).apply r, render l⟩ =
        (⟨((e.swap w files).apply r).freeze.publishVersion, render (WalLog.roll l).1⟩, .ok ()) := by
      refine (ite_or _ _ _ _).symm.trans ((if_neg hstay).trans ?_)
      dsimp only
      rw [hroll]
    have hengine : Engine.applyMutation false { e with wal := l } r =
        (Engine.freeze { e with
          active := e.active.applyRecord r
          wal := (WalLog.roll l).1 }).publishVersion :=
      (ite_or _ _ _ _).symm.trans (if_neg hstay)
    rw [hstore, hengine]
    exact ⟨⟨⟨w, files, rfl⟩, rfl, h.files⟩, rfl⟩

theorem Engine.Storable.write (h : e.Storable) (hl : WalLog.Live e.wal)
    (hroom : e.wal.lastSeqno + 1 < 2 ^ 64)
    (hfit : kMinPayload + key.length + value.length ≤ kMaxPayload)
    (hvalue : del = true → value = []) : (e.write del key value).1.Storable := by
  rcases write_eq del key value e with ⟨x, -, heq⟩ | ⟨hcheck, heq⟩
  · rw [heq]
    exact h
  obtain ⟨-, hkey, -⟩ := checkWrite_ok hcheck
  set r : Record := e.nextRecord del key value
  have hr : StorableRecord r := ⟨⟨hfit, hroom, hvalue⟩, hkey⟩
  have hlive : WalLog.Live (WalLog.appendRecord r (WalLog.makeRoom r e.wal)) :=
    (live_makeRoom hl r).appendRecord r
  have hrecords : ∀ z ∈ WalLog.records (WalLog.appendRecord r (WalLog.makeRoom r e.wal)).dir,
      StorableRecord z := by
    intro z hz
    have hsame : WalLog.records (WalLog.makeRoom r e.wal).dir = WalLog.records e.wal.dir := by
      rw [WalLog.makeRoom]
      split
      · exact WalLog.records_rollSegment hl
      · rfl
    rw [WalLog.records_appendRecord (live_makeRoom hl r), hsame] at hz
    rcases List.mem_append.mp hz with hz | hz
    · exact h.records z hz
    · obtain rfl := List.mem_singleton.mp hz
      exact hr
  have hactive : LsmKv.Storable (e.active.applyRecord r).map :=
    (h.memtables e.active List.mem_cons_self).applyRecord hr
  have hrest : ∀ m ∈ e.immutables, LsmKv.Storable m.map := fun m hm =>
    h.memtables m (List.mem_cons_of_mem _ hm)
  have hloads := h.loads.write del key value
  rw [heq] at hloads ⊢
  rcases Engine.applyMutation_cases false { e with
      wal := WalLog.appendRecord r (WalLog.makeRoom r e.wal) } r with ⟨-, hstay⟩ | ⟨-, hrotate⟩
  · rw [hstay]
    exact ⟨hstay ▸ hloads, hrecords, List.forall_mem_cons.mpr ⟨hactive, hrest⟩, h.files, h.bounds⟩
  · rw [hrotate]
    refine ⟨hrotate ▸ hloads, fun z hz => hrecords z ?_, List.forall_mem_cons.mpr ⟨storable_empty,
      List.forall_mem_cons.mpr ⟨hactive, hrest⟩⟩, h.files, h.bounds⟩
    change z ∈ WalLog.records (WalLog.roll
      (WalLog.appendRecord r (WalLog.makeRoom r e.wal))).1.dir at hz
    rw [WalLog.roll] at hz
    split at hz
    · exact hz
    · rwa [WalLog.records_rollSegment hlive] at hz

end

/-! ## Flushes -/

/-- The published state of a flush, or the manifest edited in memory only. -/
theorem publishFlush_cases (info : TableMeta) (e : Engine) :
    ((e.manifest.addTable info).dumps e.config.isUtf8 = true ∧ e.publishFlush info = ({ e with
      manifest := e.manifest.addTable info
      stored := some (e.manifest.addTable info)
      readers := info :: e.readers
      immutables := e.immutables.dropLast
      version := ⟨e.immutables.dropLast, info :: e.readers⟩ }, .ok ())) ∨
    ¬(e.manifest.addTable info).dumps e.config.isUtf8 = true ∧
      e.publishFlush info = ({ e with manifest := e.manifest.addTable info }, .error .json) := by
  rw [Engine.publishFlush, Engine.publishFlushAt, Engine.saveAt]
  by_cases hd : (e.manifest.addTable info).dumps e.config.isUtf8 = true
  · rw [if_pos hd]
    exact .inl ⟨hd, rfl⟩
  · rw [if_neg hd]
    exact .inr ⟨hd, rfl⟩

theorem publishFlush_swap (w : Wal Record) (files : OrderedMap ℕ Rows) (info : TableMeta)
    (e : Engine) : (e.swap w files).publishFlush info =
      ((e.publishFlush info).1.swap w files, (e.publishFlush info).2) := by
  rcases publishFlush_cases info e with ⟨hd, heq⟩ | ⟨hd, heq⟩ <;>
    rcases publishFlush_cases info (e.swap w files) with ⟨hd', heq'⟩ | ⟨hd', heq'⟩
  · rw [heq, heq']
    rfl
  · exact absurd hd hd'
  · exact absurd hd' hd
  · rw [heq, heq']
    rfl

/-- A table is written: the file is the image of its rows. -/
theorem ByteEngine.Renders.writeSstable (h : s.Renders e) (hst : e.Storable) (hh : Holds e M D)
    {mem : Memtable} (hmem : Storable mem.map) (hfits : FileFits e.config mem) :
    (∃ x, s.writeSstable mem = .error x ∧ e.writeSstable mem = .error x) ∨
    ∃ s' e' r, s.writeSstable mem = .ok (s', r) ∧ e.writeSstable mem = .ok (e', r) ∧
      s'.Renders e' ∧ e'.Storable ∧ e'.wal = e.wal ∧ r.bloomBitsPerKey.isFinite = true ∧
      ∀ created rows, e'.files.find? (r.toMeta created).id = some rows →
        Bounds (r.toMeta created) rows := by
  obtain ⟨w, files, heng⟩ := h.engine
  rw [ByteEngine.writeSstable, h.manifest, h.config]
  rcases hwrite : Sst.writeSstable e.manifest.nextSstId mem (e.config.sst mem.entries) with
    f | ⟨r, file⟩
  · refine .inl ⟨_, rfl, ?_⟩
    rw [Engine.writeSstable, hwrite]
  have himage : Images file mem.map := images_of_storable hfits hmem hwrite
  have hrid : r.id = e.manifest.nextSstId := (exists_liveTable hwrite 0).1
  have hindexed := hfits.indexed hmem
  have hrecord : e.writeSstable mem = .ok (e.placeFile r.id mem, r) := by
    rw [Engine.writeSstable, hwrite]
  have hbits : r.bloomBitsPerKey = e.config.bloomBitsPerKey := bitsPerKey_writeSstable hwrite
  have hsame : (e.placeFile r.id mem).misindexed = e.misindexed :=
    (hst.loads.placeFile hindexed r.id).2.trans hst.loads.2.symm
  refine .inr ⟨_, _, r, rfl, hrecord,
    ⟨⟨w, files, by rw [heng, Engine.swap, Engine.swap, hsame]⟩, h.log,
      rel_insert h.files himage r.id⟩,
    ⟨hst.loads.placeFile hindexed r.id, hst.records, hst.memtables, fun id rows hrows => ?_,
      fun t ht rows hrows => ?_⟩, rfl, hbits ▸ hfits.finite, fun created rows hrows => ?_⟩
  · change (e.files.insert r.id mem.map).find? id = some rows at hrows
    rw [find?_insert] at hrows
    split at hrows
    · obtain rfl := Option.some.inj hrows
      exact hmem
    · exact hst.files id rows hrows
  · change (e.files.insert r.id mem.map).find? t.id = some rows at hrows
    have hold : t.id ≠ r.id := by
      rw [hrid]
      refine (?_ : t.id < e.manifest.nextSstId).ne
      rw [← hh.manifest, ← hh.readers, ← List.map_append] at ht
      obtain ⟨T, hT, rfl⟩ := List.mem_map.mp ht
      exact hh.fresh T hT
    rw [find?_insert_of_ne _ _ hold.symm] at hrows
    exact hst.bounds t ht rows hrows
  · change (e.files.insert r.id mem.map).find? r.id = some rows at hrows
    rw [find?_insert_self] at hrows
    obtain rfl := Option.some.inj hrows
    exact Sst.bounds_writeSstable hwrite created

/-- A flushed table is listed, in memory at least. -/
theorem Engine.Storable.publishFlush (h : e.Storable) (info : TableMeta)
    (hfinite : info.bloomBitsPerKey.isFinite = true)
    (hinfo : ∀ rows, e.files.find? info.id = some rows → Bounds info rows) :
    (e.publishFlush info).1.Storable := by
  have hadd : ∀ t ∈ info :: (e.manifest.tables ++ e.readers), ∀ rows,
      e.files.find? t.id = some rows → Bounds t rows := List.forall_mem_cons.mpr ⟨hinfo, h.bounds⟩
  have hloads := h.loads.publishFlush info hfinite
  rcases publishFlush_cases info e with ⟨-, heq⟩ | ⟨-, heq⟩ <;> rw [heq] at hloads ⊢
  · refine ⟨hloads, h.records, fun m hm => h.memtables m ?_, h.files, fun t ht => hadd t ?_⟩
    · rcases List.mem_cons.mp hm with rfl | hm
      · exact List.mem_cons_self
      · exact List.mem_cons_of_mem _ (List.dropLast_subset _ hm)
    · change t ∈ (info :: e.manifest.tables) ++ (info :: e.readers) at ht
      simp only [List.mem_append, List.mem_cons] at ht ⊢
      tauto
  · exact ⟨hloads, h.records, h.memtables, h.files, hadd⟩

theorem Engine.Storable.removeCovered (h : e.Storable) (hlog : WalLog.Intact e.wal) :
    e.removeCovered.Storable := by
  refine ⟨⟨⟨h.loads.1.memory, h.loads.1.stored⟩, h.loads.2⟩, fun r hr => h.records r ?_,
    h.memtables, h.files, h.bounds⟩
  have hall : (e.wal.removeSegmentsCovered e.manifest.maxSeqno).1 =
      e.wal.removeFirst e.manifest.maxSeqno e.wal.dir.keys.length := by
    rw [Wal.removeFirst, List.take_length]
    rfl
  obtain ⟨gone, hsplit, -⟩ := hlog.records_removeFirst e.manifest.maxSeqno e.wal.dir.keys.length
  rw [hsplit, ← hall]
  exact List.mem_append_right _ hr

theorem ByteEngine.Renders.flushOne (h : s.Renders e) (hst : e.Storable) (hh : Holds e M D)
    (hlog : WalLog.Intact e.wal)
    (hfits : ∀ target ∈ e.immutables.getLast?, FileFits e.config target) (now : ℕ) :
    (s.flushOne now).1.Renders (e.flushOne now).1 ∧ (e.flushOne now).1.Storable := by
  rw [ByteEngine.flushOne, Engine.flushOne, Engine.flushOneAt, h.immutables]
  rcases ht : e.immutables.getLast? with _ | target
  · exact ⟨h, hst⟩
  dsimp only
  have hmem : Storable target.map :=
    hst.memtables target (List.mem_cons_of_mem _ (List.mem_of_getLast? ht))
  rcases h.writeSstable hst hh hmem (hfits target ht) with
    ⟨x, hbytes, hrows⟩ | ⟨s', e', r, hbytes, hrows, h', hst', hwal, hfinite, hbounds⟩
  · rw [hbytes, hrows]
    exact ⟨h, hst⟩
  rw [hbytes, hrows]
  dsimp only
  obtain ⟨w', files', heng'⟩ := h'.engine
  have hpublished := hst'.publishFlush (r.toMeta now) hfinite (hbounds now)
  have hlog' : WalLog.Intact e'.wal := hwal ▸ hlog
  rw [heng', publishFlush_swap]
  have hrecord : Engine.publishFlushAt none (r.toMeta now) e' = e'.publishFlush (r.toMeta now) :=
    rfl
  rw [hrecord]
  rcases publishFlush_cases (r.toMeta now) e' with ⟨-, heq⟩ | ⟨-, heq⟩ <;>
    rw [heq] at hpublished ⊢
  · refine ⟨⟨⟨w', files', rfl⟩, ?_, h'.files⟩, hpublished.removeCovered hlog'⟩
    dsimp only
    rw [h'.log, removeSegmentsCovered_render]
    rfl
  · exact ⟨⟨⟨w', files', rfl⟩, h'.log, h'.files⟩, hpublished⟩

/-! ## Compactions -/

/-- The published state of a compaction, or the manifest edited in memory only. -/
theorem publishCompaction_cases (ids : List ℕ) (added : Option TableMeta) (e : Engine) :
    ((e.manifest.applyCompaction e.config.sort ids added).dumps e.config.isUtf8 = true ∧
      ∃ readers, (∀ t ∈ readers,
          t ∈ (e.manifest.applyCompaction e.config.sort ids added).tables ∨ t ∈ e.readers) ∧
        ∀ w files, (e.swap w files).publishCompaction ids added = ({ e.swap w files with
          manifest := e.manifest.applyCompaction e.config.sort ids added
          stored := some (e.manifest.applyCompaction e.config.sort ids added)
          readers := readers
          version := ⟨e.immutables, readers⟩ }, .ok (e.readers.filter (fun r => r.id ∈ ids)))) ∨
    ∀ w files, (e.swap w files).publishCompaction ids added = ({ e.swap w files with
      manifest := e.manifest.applyCompaction e.config.sort ids added }, .error .json) := by
  by_cases hd : (e.manifest.applyCompaction e.config.sort ids added).dumps e.config.isUtf8 = true
  · refine .inl ⟨hd, (e.manifest.applyCompaction e.config.sort ids added).tables.map
      (fun t => (e.readers.find? (fun r => r.id = t.id)).getD t), fun t ht => ?_,
      fun w files => ?_⟩
    · obtain ⟨u, hu, rfl⟩ := List.mem_map.mp ht
      rcases hfind : e.readers.find? (fun r => r.id = u.id) with _ | r <;>
        rw [hfind]
      · exact .inl hu
      · exact .inr (List.mem_of_find?_eq_some hfind)
    · rw [Engine.publishCompaction, Engine.publishCompactionAt, Engine.saveAt]
      have hd' : ((e.swap w files).manifest.applyCompaction (e.swap w files).config.sort ids
        added).dumps (e.swap w files).config.isUtf8 = true := hd
      rw [if_pos hd']
      rfl
  · refine .inr fun w files => ?_
    rw [Engine.publishCompaction, Engine.publishCompactionAt, Engine.saveAt]
    have hd' : ¬((e.swap w files).manifest.applyCompaction (e.swap w files).config.sort ids
      added).dumps (e.swap w files).config.isUtf8 = true := hd
    rw [if_neg hd']
    rfl

/-- A compaction's output is listed, in memory at least. -/
theorem Engine.Storable.publishCompaction (h : e.Storable) (ids : List ℕ)
    {added : Option TableMeta} (hfinite : ∀ t ∈ added, t.bloomBitsPerKey.isFinite = true)
    (hadded : ∀ t ∈ added, ∀ rows, e.files.find? t.id = some rows → Bounds t rows) :
    (e.publishCompaction ids added).1.Storable := by
  have htables : ∀ t ∈ (e.manifest.applyCompaction e.config.sort ids added).tables, ∀ rows,
      e.files.find? t.id = some rows → Bounds t rows := by
    intro t ht
    have hmem := (e.config.sort.perm _).mem_iff.mp ht
    rcases List.mem_append.mp hmem with hmem | hmem
    · exact h.bounds t (List.mem_append_left _ (List.mem_filter.mp hmem).1)
    · exact hadded t (Option.mem_toList.mp hmem)
  have hreaders : ∀ t ∈ e.readers, ∀ rows, e.files.find? t.id = some rows → Bounds t rows :=
    fun t ht => h.bounds t (List.mem_append_right _ ht)
  have hloads := h.loads.publishCompaction ids hfinite
  rcases publishCompaction_cases ids added e with ⟨-, readers, hmem, heq⟩ | heq
  · rw [show e.publishCompaction ids added = _ from heq e.wal e.files] at hloads ⊢
    refine ⟨hloads, h.records, h.memtables, h.files, fun t ht => ?_⟩
    rcases List.mem_append.mp ht with ht | ht
    · exact htables t ht
    · exact (hmem t ht).elim (htables t) (hreaders t)
  · rw [show e.publishCompaction ids added = _ from heq e.wal e.files] at hloads ⊢
    refine ⟨hloads, h.records, h.memtables, h.files, fun t ht => ?_⟩
    rcases List.mem_append.mp ht with ht | ht
    · exact htables t ht
    · exact hreaders t ht

theorem ByteEngine.Renders.deleteInput (h : s.Renders e) (r : TableMeta) :
    (s.deleteInput r).Renders (Engine.deleteInput [] e r) := by
  obtain ⟨w, files, heng⟩ := h.engine
  rw [ByteEngine.deleteInput, Engine.deleteInput, h.version, List.any_cons, List.any_nil,
    Bool.or_false]
  split
  · exact h
  · exact ⟨⟨w, files, heng⟩, h.log, rel_erase h.files r.id⟩

theorem Engine.Storable.deleteInput (h : e.Storable) (held : List Version) (r : TableMeta) :
    (Engine.deleteInput held e r).Storable := by
  rw [Engine.deleteInput]
  split
  · exact h
  have hfewer : ∀ id rows, (e.files.erase r.id).find? id = some rows →
      e.files.find? id = some rows := by
    intro id rows hrows
    rw [find?_erase] at hrows
    split at hrows
    · cases hrows
    · exact hrows
  exact ⟨⟨⟨h.loads.1.memory, h.loads.1.stored⟩, h.loads.2⟩, h.records, h.memtables,
    fun id rows hrows => h.files id rows (hfewer id rows hrows),
    fun t ht rows hrows => h.bounds t ht rows (hfewer t.id rows hrows)⟩

theorem ByteEngine.Renders.deleteInputs (h : s.Renders e) (hst : e.Storable)
    (rs : List TableMeta) : (rs.foldl ByteEngine.deleteInput s).Renders
      (rs.foldl (Engine.deleteInput []) e) ∧ (rs.foldl (Engine.deleteInput []) e).Storable := by
  induction rs generalizing s e with
  | nil => exact ⟨h, hst⟩
  | cons r rs ih => exact ih (h.deleteInput r) (hst.deleteInput [] r)

theorem exists_of_scanTables {files : OrderedMap ℕ Rows} {ts : List TableMeta}
    {rows : List Rows} (h : Engine.scanTables files ts = .ok rows) :
    ∀ r ∈ rows, ∃ id, files.find? id = some r := by
  induction ts generalizing rows with
  | nil =>
    obtain rfl := Except.ok.inj h
    exact nofun
  | cons t ts ih =>
    rw [Engine.scanTables] at h
    rcases hrows : files.find? t.id with _ | first <;> rw [hrows] at h
    · cases h
    rcases hrest : Engine.scanTables files ts with x | rest <;> rw [hrest] at h
    · cases h
    obtain rfl := Except.ok.inj h
    exact List.forall_mem_cons.mpr ⟨⟨t.id, hrows⟩, ih hrest⟩

/-- The merge of what the scans of the inputs find. -/
theorem ByteEngine.Renders.mergeInputs (h : s.Renders e) (hst : e.Storable) {ids : List ℕ}
    {now : ℕ} {final merged : Memtable} {n : ℕ}
    (hmerge : e.mergeInputs ids now = .ok (final, merged, n)) :
    s.mergeInputs ids now = .ok final ∧ Storable final.map := by
  rw [Engine.mergeInputs] at hmerge
  split at hmerge
  · cases hmerge
  · rename_i rows hscan
    obtain ⟨rfl, -⟩ := Prod.mk.inj (Except.ok.inj hmerge)
    rw [ByteEngine.mergeInputs, h.config, h.inputMeta, h.drops, scanAll_eq h.files hscan]
    dsimp only
    rw [mergeRows_eq]
    refine ⟨rfl, storable_finalTable (fun r hr => ?_)⟩
    obtain ⟨id, hid⟩ := exists_of_scanTables hscan r hr
    exact hst.files id r hid

theorem ByteEngine.Renders.writeOutput (h : s.Renders e) (hst : e.Storable) (hh : Holds e M D)
    {final : Memtable} (hfinal : Storable final.map)
    (hfits : final.entries ≠ 0 → FileFits e.config final) (created : ℕ) :
    (∃ x, s.writeOutput final created = .error x ∧ e.writeOutput final created = .error x) ∨
    ∃ s' e' added, s.writeOutput final created = .ok (s', added) ∧
      e.writeOutput final created = .ok (e', added) ∧ s'.Renders e' ∧ e'.Storable ∧
      ∀ t ∈ added, t.bloomBitsPerKey.isFinite = true ∧
        ∀ rows, e'.files.find? t.id = some rows → Bounds t rows := by
  rw [ByteEngine.writeOutput, Engine.writeOutput]
  by_cases hempty : final.entries = 0
  · rw [if_pos hempty, if_pos hempty]
    exact .inr ⟨s, e, none, rfl, rfl, h, hst, fun t ht => absurd ht (Option.not_mem_none t)⟩
  rw [if_neg hempty, if_neg hempty]
  rcases h.writeSstable hst hh hfinal (hfits hempty) with
    ⟨x, hbytes, hrows⟩ | ⟨s', e', r, hbytes, hrows, h', hst', -, hfinite, hbounds⟩
  · rw [hbytes, hrows]
    exact .inl ⟨x, rfl, rfl⟩
  · rw [hbytes, hrows]
    refine .inr ⟨s', e', _, rfl, rfl, h', hst', fun t ht => ?_⟩
    obtain rfl := Option.some.inj ht
    exact ⟨hfinite, hbounds created⟩

theorem ByteEngine.Renders.publishCompaction (h : s.Renders e) (hst : e.Storable)
    (ids : List ℕ) {added : Option TableMeta}
    (hadded : ∀ t ∈ added, t.bloomBitsPerKey.isFinite = true ∧
      ∀ rows, e.files.find? t.id = some rows → Bounds t rows) :
    { s with engine := (s.engine.publishCompaction ids added).1 }.Renders
        (e.publishCompaction ids added).1 ∧
      (s.engine.publishCompaction ids added).2 = (e.publishCompaction ids added).2 ∧
      (e.publishCompaction ids added).1.Storable := by
  obtain ⟨w, files, heng⟩ := h.engine
  have hst' := hst.publishCompaction ids (fun t ht => (hadded t ht).1)
    (fun t ht => (hadded t ht).2)
  rw [heng]
  rcases publishCompaction_cases ids added e with ⟨-, readers, -, heq⟩ | heq
  all_goals
    have hrecord : e.publishCompaction ids added = _ := heq e.wal e.files
    rw [hrecord] at hst' ⊢
    rw [heq w files]
    exact ⟨⟨⟨w, files, rfl⟩, h.log, h.files⟩, rfl, hst'⟩

theorem ByteEngine.Renders.runCompaction (h : s.Renders e) (hst : e.Storable)
    (hh : Holds e M D) (choice : Option (List ℕ)) (now created : ℕ)
    (hfits : ∀ ids ∈ (e.chooseInputs choice).toOption.join,
      ∀ final ∈ (s.mergeInputs ids now).toOption, final.entries ≠ 0 → FileFits e.config final) :
    (s.runCompaction choice now created).1.Renders (e.runCompaction choice now created).1 ∧
      (e.runCompaction choice now created).1.Storable := by
  rw [ByteEngine.runCompaction, Engine.runCompaction, Engine.runCompactionAt,
    h.ensureOpen, h.chooseInputs]
  rcases e.ensureOpen with x | u
  · exact ⟨h, hst⟩
  dsimp only
  rcases hids : e.chooseInputs choice with x | _ | ids
  · exact ⟨h, hst⟩
  · exact ⟨h, hst⟩
  dsimp only
  obtain ⟨front, inputs, back, hsel⟩ := hh.selects hids
  obtain ⟨final, merged, n, hmerge, -⟩ := hh.mergeInputs hsel now
  obtain ⟨hbytes, hfinal⟩ := h.mergeInputs hst hmerge
  have hfile := hfits ids (by rw [hids]; rfl) final (by rw [hbytes]; rfl)
  rw [hbytes, scanInputs_nil hst.loads.2, hmerge]
  dsimp only
  rcases h.writeOutput hst hh hfinal hfile created with
    ⟨x, hw, hw'⟩ | ⟨s', e', added, hw, hw', h', hst', hadded⟩
  · rw [hw, hw']
    exact ⟨h, hst⟩
  rw [hw, hw']
  dsimp only
  obtain ⟨hpublished, hresult, hst''⟩ := h'.publishCompaction hst' ids hadded
  have hrecord : Engine.publishCompactionAt none ids added e' = e'.publishCompaction ids added :=
    rfl
  rw [hrecord]
  rcases hp : s'.engine.publishCompaction ids added with ⟨t, res⟩
  rcases hp' : e'.publishCompaction ids added with ⟨e'', res'⟩
  rw [hp, hp'] at hpublished hresult
  rw [hp'] at hst''
  obtain rfl : res = res' := hresult
  rcases res with x | removed
  · exact ⟨hpublished, hst''⟩
  · exact hpublished.deleteInputs hst'' removed

/-! ## Calls -/

/-- The counters have numbers left that names have room for, and a table to be written fits its
fields. -/
def ByteEngine.Fits (s : ByteEngine) : Call → Prop
  | .put _ _ | .remove _ => s.log.lastSeqno + 1 < 2 ^ 64 ∧ s.log.activeId + 2 < 10 ^ 11
  | .flushOne _ => s.engine.manifest.nextSstId < 10 ^ 15 ∧
    ∀ target ∈ s.engine.immutables.getLast?, FileFits s.engine.config target
  | .runCompaction inputs now _ => s.engine.manifest.nextSstId < 10 ^ 15 ∧
    ∀ ids ∈ (s.engine.chooseInputs inputs).toOption.join,
    ∀ final ∈ (s.mergeInputs ids now).toOption, final.entries ≠ 0 →
      FileFits s.engine.config final

/-- One step over bytes is one step over records and rows. -/
theorem ByteEngine.Renders.perform (h : s.Renders e) (hst : e.Storable) (hh : Holds e M D)
    (hlog : WalLog.Intact e.wal) {c : Call} (hc : Orderly e c) (hfits : s.Fits c) :
    (s.perform c).Renders (e.perform c) ∧ (e.perform c).Storable ∧ s.accepted c = e.accepted c := by
  have hlast : s.log.lastSeqno = e.wal.lastSeqno := by rw [h.log]; rfl
  have hwrite : ∀ (del : Bool) (key value : Bytes),
      (s.write .never .never del key value).2 = (e.write del key value).2 →
      (s.write .never .never del key value).2.toOption.map
        (fun n => (⟨del, key, value, n⟩ : Record)) =
      (e.write del key value).2.toOption.map (fun n => (⟨del, key, value, n⟩ : Record)) :=
    fun del key value heq => by rw [heq]
  cases c with
  | put key value =>
    have hroom : e.wal.lastSeqno + 1 < 2 ^ 64 := hlast ▸ hfits.1
    obtain ⟨hr, heq⟩ := h.write false key value hlog.toLive hroom
    exact ⟨hr, hst.write hlog.toLive hroom hc nofun, hwrite false key value heq⟩
  | remove key =>
    have hroom : e.wal.lastSeqno + 1 < 2 ^ 64 := hlast ▸ hfits.1
    obtain ⟨hr, heq⟩ := h.write true key [] hlog.toLive hroom
    exact ⟨hr, hst.write hlog.toLive hroom hc (fun _ => rfl), hwrite true key [] heq⟩
  | flushOne now =>
    have hfile : ∀ target ∈ e.immutables.getLast?, FileFits e.config target :=
      fun target ht => h.config ▸ hfits.2 target (h.immutables ▸ ht)
    obtain ⟨hr, hst'⟩ := h.flushOne hst hh hlog hfile now
    exact ⟨hr, hst', rfl⟩
  | runCompaction inputs now created =>
    obtain ⟨hr, hst'⟩ := h.runCompaction hst hh inputs now created
      (fun ids hids final hfinal hne =>
        h.config ▸ hfits.2 ids (h.chooseInputs inputs ▸ hids) final hfinal hne)
    exact ⟨hr, hst', rfl⟩

end

/-! ## Opening and closing -/

/-- The bytes of the table files and all else in the directory, apart from the log. -/
structure ByteDisk.Matches (b : ByteDisk) (d : Disk) : Prop where
  manifest : b.manifest = d.manifest
  temps : b.temps = d.temps
  paused : b.paused = d.paused
  files : ∀ id, Option.Rel Images (b.files.find? id) (d.files.find? id)

/-- The directory at rest reads as one of records and rows. -/
structure ByteDisk.Stands (b : ByteDisk) (d : Disk) : Prop where
  rest : b.Matches d
  log : DirReads b.wal d.wal

theorem storable_memtable {config : Config} {p : List Record} (h : ∀ r ∈ p, StorableRecord r) :
    Storable (config.memtable p).map := by
  intro key row hrow
  obtain ⟨r, hr, rfl⟩ := Option.map_eq_some_iff.mp ((find_memtable config p key).symm.trans hrow)
  obtain ⟨hmem, rfl⟩ := mem_of_lastRecord hr
  exact (h r hmem).row

theorem Images.validateFooter {file : Bytes} {rows : Rows} (h : Images file rows) (t : TableMeta)
    (cache_index_blocks : Bool) : ∃ r,
      (Sst.TableReader.created file t cache_index_blocks).validateFooter = (r, .ok ()) := by
  obtain ⟨cfg, mem, hfits, rfl, rfl⟩ := h
  obtain ⟨groups, htable, -, -⟩ := Sst.exists_table hfits
  exact ⟨_, htable.loadFooter _⟩

theorem openReaders_images {files : OrderedMap ℕ Bytes} {ts : List TableMeta}
    (h : ∀ t ∈ ts, ∃ file rows, files.find? t.id = some file ∧ Images file rows)
    (cache_index_blocks : Bool) :
    ∃ rs, Process.openReaders files cache_index_blocks ts = .ok rs := by
  induction ts with
  | nil => exact ⟨[], rfl⟩
  | cons t ts ih =>
    obtain ⟨⟨file, rows, hfile, himage⟩, hts⟩ := List.forall_mem_cons.mp h
    obtain ⟨r, hr⟩ := Images.validateFooter himage t cache_index_blocks
    obtain ⟨rs, hrs⟩ := ih hts
    rw [Process.openReaders, hfile]
    dsimp only
    rw [hr]
    dsimp only
    rw [hrs]
    exact ⟨r :: rs, rfl⟩

theorem rel_filter {files : OrderedMap ℕ Bytes} {rows : OrderedMap ℕ Rows}
    (h : ∀ id, Option.Rel Images (files.find? id) (rows.find? id)) (keep : ℕ → Bool) (id : ℕ) :
    Option.Rel Images ((files.filter (fun id _ => keep id)).find? id)
      ((rows.filter (fun id _ => keep id)).find? id) := by
  have hfile := h id
  rw [find?_filter, find?_filter]
  rcases hbytes : files.find? id with _ | file <;> rcases hrows : rows.find? id with _ | r <;>
    rw [hbytes, hrows] at hfile
  · exact .none
  · cases hfile
  · cases hfile
  · rw [Option.filter_some, Option.filter_some]
    split
    · exact hfile
    · exact .none

section
variable {b : ByteDisk} {d : Disk} {D : List LiveTable} {V : Bytes → Option Bytes}

theorem Disk.Storable.opened (h : d.Storable) (ht : d.Tells V D) (config : Config) :
    (Host.opened config d).Storable := by
  obtain ⟨M, ps, q, htells⟩ := ht.opened config
  have hopen := open_of_holds ht.holds h.loads.1 config
  have hknown := htells.knows.remembered
  have hmem : ∀ r ∈ ps.flatten ++ q, StorableRecord r := fun r hr =>
    h.records r (hknown.mem.subset hr)
  have hmanifest : (Host.opened config d).manifest =
      Manifest.restore config.sort d.manifest := by
    rw [Host.opened, recover_eq]
    rfl
  have hreaders : (Host.opened config d).readers =
      (Manifest.restore config.sort d.manifest).tables := by
    rw [Host.opened, recover_eq]
    rfl
  have hfiles : ∀ id rows, (Host.opened config d).files.find? id = some rows →
      d.files.find? id = some rows := by
    intro id rows hrows
    rw [Host.opened, recover_eq] at hrows
    change (d.files.filter _).find? id = some rows at hrows
    rw [find?_filter, Option.filter_eq_some_iff] at hrows
    exact hrows.1
  refine ⟨⟨.of_open hopen, (misindexed_open hopen).trans h.loads.2⟩,
    fun r hr => h.records r (hknown.wal.subset hr), fun m hm => ?_,
    fun id rows hrows => h.files id rows (hfiles id rows hrows), fun t ht rows hrows => ?_⟩
  · rw [htells.active, htells.immutables] at hm
    rcases List.mem_cons.mp hm with rfl | hm
    · exact storable_memtable (fun r hr => hmem r (List.mem_append_right _ hr))
    · obtain ⟨p, hp, rfl⟩ := List.mem_map.mp (List.mem_reverse.mp hm)
      exact storable_memtable (fun r hr =>
        hmem r (List.mem_append_left _ (List.mem_flatten.mpr ⟨p, hp, hr⟩)))
  · rw [hmanifest, hreaders] at ht
    have hlisted : t ∈ d.storedTables := (restore_tables config.sort d.manifest).mem_iff.mp
      ((List.mem_append.mp ht).elim id id)
    exact h.bounds t hlisted rows (hfiles t.id rows hrows)

/-- A directory of bytes opens like the one it reads as. -/
theorem ByteDisk.Stands.open (h : b.Stands d) (hst : d.Storable) (ht : d.Tells V D)
    (config : Config) :
    ∃ s, ByteEngine.open config b = .ok s ∧ s.Renders (Host.opened config d) := by
  have hloaded : ByteEngine.loaded config b =
      (Engine.loaded config d).swap (Wal.create ∅ config.walFsyncEveryN config.walSegmentRollBytes)
        ∅ := by
    rw [ByteEngine.loaded, h.rest.manifest, h.rest.paused, Engine.loaded, Engine.loaded,
      hst.loads.2]
    rfl
  have hmanifest : (ByteEngine.loaded config b).manifest = (Engine.loaded config d).manifest := by
    rw [hloaded]
    rfl
  have hkept : ∀ id, Option.Rel Images ((ByteEngine.listed config b).find? id)
      ((Engine.loaded config d).files.find? id) := by
    intro id
    rw [ByteEngine.listed, hmanifest]
    change Option.Rel Images _ ((d.files.filter (fun id _ =>
      (Engine.loaded config d).manifest.tables.any (fun t => t.id = id))).find? id)
    exact rel_filter h.rest.files _ id
  obtain ⟨rs, hreaders⟩ : ∃ rs, Process.openReaders (ByteEngine.listed config b) false
      (ByteEngine.loaded config b).manifest.tables = .ok rs := by
    refine openReaders_images (fun t htable => ?_) false
    obtain ⟨M, ps, q, htells⟩ := ht.opened config
    have hopened : (Host.opened config d).manifest = (Engine.loaded config d).manifest ∧
        (Host.opened config d).files = (Engine.loaded config d).files := by
      rw [Host.opened, recover_eq]
      exact ⟨rfl, rfl⟩
    rw [hmanifest, ← hopened.1, ← htells.holds.manifest] at htable
    obtain ⟨T, hT, rfl⟩ := List.mem_map.mp htable
    have hrows := htells.holds.files T (List.mem_append_left _ hT)
    have hfile := hkept T.info.id
    rw [← hopened.2, hrows] at hfile
    rcases hbytes : (ByteEngine.listed config b).find? T.info.id with _ | file <;>
      rw [hbytes] at hfile
    · cases hfile
    · exact ⟨file, T.rows, rfl, Option.rel_some_some.mp hfile⟩
  have hopen := open_render
    (b := Wal.create b.wal config.walFsyncEveryN config.walSegmentRollBytes)
    (l := Wal.create d.wal config.walFsyncEveryN config.walSegmentRollBytes) h.log rfl
  refine ⟨⟨⟨((WalLog.open (Engine.loaded config d).wal).2.foldl (Engine.applyMutation true)
      (ByteEngine.loaded config b)).publishVersion, (render (WalLog.open
        (Engine.loaded config d).wal).1).bumpSeqno (ByteEngine.loaded config b).manifest.maxSeqno⟩,
    ByteEngine.listed config b⟩, ?_, ⟨?_, ?_, ?_⟩⟩
  · have hload : Manifest.loadOrCreate config.sort b.manifest =
        .ok (Manifest.restore config.sort b.manifest) := by
      rw [h.rest.manifest]
      exact if_pos hst.loads.1
    rw [ByteEngine.open, hload]
    dsimp only
    rw [hreaders]
    dsimp only
    rw [hopen]
    rfl
  · rw [hloaded, Engine.foldl_applyMutation_true, Host.opened, Engine.recover,
      Engine.foldl_applyMutation_true]
    exact ⟨_, _, rfl⟩
  · dsimp only
    rw [hmanifest, Host.opened, recover_eq]
    rfl
  · rw [Host.opened, recover_eq]
    exact hkept

theorem ByteEngine.Renders.close {s : ByteEngine} {e : Engine} {M : List LiveTable}
    {S : List Record} {ps : List (List Record)} {q : List Record} (h : s.Renders e)
    (hst : e.Storable) (ht : LsmKv.Tells V e M D S ps q) :
    s.close.disk.Stands e.close.disk ∧ e.close.disk.Storable := by
  obtain ⟨w, files, heng⟩ := h.engine
  obtain ⟨hsealed, hrecords⟩ := ht.log.toLive.close ht.walOpen
  have hrecord : e.close = { e with wal := e.wal.close, closed := true } := by
    rw [Engine.close, ht.isOpen]
    rfl
  have hbytes : s.close = { s with
      engine := { s.engine with closed := true }
      log := s.log.close } := by
    rw [ByteEngine.close, heng]
    exact if_neg (by simp [Engine.swap, ht.isOpen])
  have hlog : s.log.close = render e.wal.close := by
    obtain ⟨pre, f, hends, -⟩ := ht.log.toLive
    rw [h.log, close_render hends]
  have hreadable : ∀ r ∈ WalLog.records e.wal.close.dir, StorableRecord r := by
    rw [hrecords]
    exact hst.records
  have hdisk : e.disk.Storable := hst.disk ht.holds
  rw [hrecord, hbytes, heng, hlog]
  exact ⟨⟨⟨rfl, rfl, rfl, h.files⟩,
      dirReads_render hsealed (fun r hr => (hreadable r hr).readable)⟩,
    hdisk.loads, hreadable, hdisk.files, hdisk.bounds⟩

end

end LsmKv
