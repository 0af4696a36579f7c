import LsmKv.Errors
import LsmKv.Engine
import LsmKv.FileNames
import LsmKv.Json
import LsmKv.Timestamps

/-!
# The manifest on disk

The manifest is one JSON document, replaced as a whole: it is written to a temporary file, synced,
and renamed over the old one. So whatever happens in between, a load finds the last document that
was published, and the list of tables in it is read back as it was, unless the bits per key of one
are not a finite number.
-/

namespace LsmKv
namespace ManifestFile

/-- Everything the manifest says of a table. -/
structure TableMeta where
  id : ℕ
  fileName : Bytes
  minKey : Bytes
  maxKey : Bytes
  minSeqno : ℕ
  maxSeqno : ℕ
  createdAt : Bytes
  fileSize : ℕ
  entries : ℕ
  bloomBitsPerKey : Double
  bloomHashes : ℕ

structure Manifest where
  nextSstId : ℕ := 1
  epoch : ℕ := 0
  tables : List TableMeta := []

/-- `std::sort` by descending `max_seqno` -/
structure AgeSort where
  run : List TableMeta → List TableMeta
  perm : ∀ ts, (run ts).Perm ts
  descending : ∀ ts, (run ts).Pairwise (fun a b => b.maxSeqno ≤ a.maxSeqno)

/-! ## The document -/

/-- The members of an object stand in the order of their names. -/
def TableMeta.toJson (t : TableMeta) : Json :=
  .obj [("bloom_bits_per_key", .float t.bloomBitsPerKey), ("bloom_hashes", .nat t.bloomHashes),
    ("created_at", .str t.createdAt), ("entries", .nat t.entries), ("file_name", .str t.fileName),
    ("file_size", .nat t.fileSize), ("id", .nat t.id), ("max_key", .str t.maxKey),
    ("max_seqno", .nat t.maxSeqno), ("min_key", .str t.minKey), ("min_seqno", .nat t.minSeqno)]

def Manifest.toJson (m : Manifest) : Json :=
  .obj [("epoch", .nat m.epoch), ("manifest_version", .nat 1), ("next_sst_id", .nat m.nextSstId),
    ("tables", .arr (m.tables.map TableMeta.toJson))]

section
variable (lib : Json.Library)

/-- The body of the loop over `tables`. -/
def readTable (t : Json) : Except Json.Exception TableMeta := do
  let id ← lib.getU64 (← lib.at t "id")
  let file_name ← lib.getStr (← lib.at t "file_name")
  let min_key ← lib.getStr (← lib.at t "min_key")
  let max_key ← lib.getStr (← lib.at t "max_key")
  let min_seqno ← lib.getU64 (← lib.at t "min_seqno")
  let max_seqno ← lib.getU64 (← lib.at t "max_seqno")
  let created_at ← lib.getStr (← lib.at t "created_at")
  let file_size ← lib.getU64 (← lib.at t "file_size")
  let entries ← lib.getU64 (← lib.at t "entries")
  let bloom_bits_per_key ← lib.getDouble (← lib.at t "bloom_bits_per_key")
  let bloom_hashes ← lib.getU32 (← lib.at t "bloom_hashes")
  return ⟨id, file_name, min_key, max_key, min_seqno, max_seqno, created_at, file_size, entries,
    bloom_bits_per_key, bloom_hashes⟩

def readTables : List Json → Except Json.Exception (List TableMeta)
  | [] => .ok []
  | t :: ts => do
    let info ← readTable lib t
    let rest ← readTables ts
    return info :: rest

/-- The `try` block of `load_or_create`. -/
def readManifest (body : Bytes) : Except Json.Exception Manifest := do
  let doc ← lib.parse body
  let next_sst_id ← lib.getU64 (← lib.at doc "next_sst_id")
  let epoch ← lib.valueU64 doc "epoch" 0
  let tables ← readTables lib (lib.elements (← lib.at doc "tables"))
  return ⟨next_sst_id, epoch, tables⟩

end

/-- Newest first by data age, and no id given out twice. -/
def Manifest.normalize (sort : AgeSort) (m : Manifest) : Manifest where
  tables := sort.run m.tables
  nextSstId := (sort.run m.tables).foldl (fun n t => max n (t.id + 1)) m.nextSstId
  epoch := m.epoch

/-! ## The directory -/

/-- `manifest.json` and `manifest.json.tmp` -/
structure Dir where
  manifest : Option Bytes := none
  temp : Option Bytes := none
  deriving DecidableEq

def invalidManifest : Error := ⟨.corruptionDetected, "invalid manifest JSON"⟩

/-- `opens` tells whether the file, if it is there, can be opened. -/
def loadOrCreate (lib : Json.Library) (sort : AgeSort) (opens : Bool) (dir : Dir) :
    Dir × Except Error Manifest :=
  let dir := { dir with temp := none }
  match dir.manifest with
  | none => (dir, .ok {})
  | some body =>
    if !opens then (dir, .error ⟨.ioFailure, "cannot open manifest"⟩)
    else match readManifest lib body with
      | .error _ => (dir, .error invalidManifest)
      | .ok m => (dir, .ok (m.normalize sort))

/-- A call of `save` that fails; removing the temporary file again may fail too. -/
inductive SaveFault where
  | openTemp
  | writeTemp (left : Option Bytes)
  | rename
  deriving DecidableEq

inductive Raised where
  | error (e : Error)
  | json (e : Json.Exception)
  deriving DecidableEq

def save (lib : Json.Library) (fault : Option SaveFault) (m : Manifest) (dir : Dir) :
    Dir × Except Raised Unit :=
  match lib.dump m.toJson with
  | .error e => (dir, .error (.json e))
  | .ok body => match fault with
    | none => (⟨some body, none⟩, .ok ())
    | some .openTemp => (dir, .error (.error ⟨.ioFailure, "cannot create temp manifest"⟩))
    | some (.writeTemp left) =>
      ({ dir with temp := left }, .error (.error ⟨.ioFailure, "cannot write temp manifest"⟩))
    | some .rename =>
      ({ dir with temp := some body }, .error (.error ⟨.ioFailure, "cannot publish manifest"⟩))

/-! ## Edits -/

def addTable (info : TableMeta) (m : Manifest) : Manifest where
  tables := info :: m.tables
  nextSstId := max m.nextSstId (info.id + 1)
  epoch := m.epoch + 1

def applyCompaction (sort : AgeSort) (removed_ids : List ℕ) (added : Option TableMeta)
    (m : Manifest) : Manifest where
  tables := sort.run (m.tables.filter (fun t => t.id ∉ removed_ids) ++ added.toList)
  nextSstId := added.elim m.nextSstId (fun t => max m.nextSstId (t.id + 1))
  epoch := m.epoch + 1

inductive Edit where
  | addTable (info : TableMeta)
  | applyCompaction (removed_ids : List ℕ) (added : Option TableMeta)

def Edit.apply (sort : AgeSort) : Edit → Manifest → Manifest
  | .addTable info => ManifestFile.addTable info
  | .applyCompaction ids added => ManifestFile.applyCompaction sort ids added

/-! ## A document is read as it was written -/

/-- The numbers fit their types. -/
structure TableMeta.Sized (t : TableMeta) : Prop where
  id : t.id < 2 ^ 64
  minSeqno : t.minSeqno < 2 ^ 64
  maxSeqno : t.maxSeqno < 2 ^ 64
  fileSize : t.fileSize < 2 ^ 64
  entries : t.entries < 2 ^ 64
  bloomHashes : t.bloomHashes < 2 ^ 32

structure Manifest.Sized (m : Manifest) : Prop where
  nextSstId : m.nextSstId < 2 ^ 64
  epoch : m.epoch < 2 ^ 64
  tables : ∀ t ∈ m.tables, t.Sized

/-- All tables have bits per key that JSON has a text for. -/
def Manifest.readable (m : Manifest) : Bool := m.tables.all (·.bloomBitsPerKey.isFinite)

theorem TableMeta.Sized.canonical {t : TableMeta} (h : t.Sized) : t.toJson.Canonical := by
  refine .obj ?_ (by simp [Json.precedes])
  simp only [List.forall_mem_cons, List.not_mem_nil, false_imp_iff, implies_true, and_true]
  exact ⟨.float _, .nat (h.bloomHashes.trans (by norm_num)), .str _, .nat h.entries, .str _,
    .nat h.fileSize, .nat h.id, .str _, .nat h.maxSeqno, .str _, .nat h.minSeqno⟩

theorem Manifest.Sized.canonical {m : Manifest} (h : m.Sized) : m.toJson.Canonical := by
  have htables : (Json.arr (m.tables.map TableMeta.toJson)).Canonical := by
    refine .arr (fun v hv => ?_)
    obtain ⟨t, ht, rfl⟩ := List.mem_map.mp hv
    exact (h.tables t ht).canonical
  refine .obj ?_ (by simp [Json.precedes])
  simp only [List.forall_mem_cons, List.not_mem_nil, false_imp_iff, implies_true, and_true]
  exact ⟨.nat h.epoch, .nat (by norm_num), .nat h.nextSstId, htables⟩

section
variable {lib : Json.Library}

/-- The members of a table as its text has them. -/
def TableMeta.members (t : TableMeta) : List (String × Json) :=
  [("bloom_bits_per_key", Json.written (.float t.bloomBitsPerKey)),
    ("bloom_hashes", .nat t.bloomHashes), ("created_at", .str t.createdAt),
    ("entries", .nat t.entries), ("file_name", .str t.fileName), ("file_size", .nat t.fileSize),
    ("id", .nat t.id), ("max_key", .str t.maxKey), ("max_seqno", .nat t.maxSeqno),
    ("min_key", .str t.minKey), ("min_seqno", .nat t.minSeqno)]

/-- The fields in the order they are read, up to the bits per key. -/
theorem readTable_written (hlib : lib.Documented) {t : TableMeta} (h : t.Sized) :
    readTable lib t.toJson.written =
      if t.bloomBitsPerKey.isFinite then .ok t else .error .typeError := by
  have hat : ∀ key v, t.members.lookup key = some v → lib.at t.toJson.written key = .ok v :=
    fun key v (hkey : t.members.lookup key = some v) => hlib.at_obj hkey
  have hbits : lib.getDouble (Json.written (.float t.bloomBitsPerKey)) =
      if t.bloomBitsPerKey.isFinite then .ok t.bloomBitsPerKey else .error .typeError := by
    rw [Json.written]
    split
    · exact hlib.getDouble_float _
    · exact hlib.getDouble_null
  simp only [readTable, hat "id" (.nat t.id) rfl, hat "file_name" (.str t.fileName) rfl,
    hat "min_key" (.str t.minKey) rfl, hat "max_key" (.str t.maxKey) rfl,
    hat "min_seqno" (.nat t.minSeqno) rfl, hat "max_seqno" (.nat t.maxSeqno) rfl,
    hat "created_at" (.str t.createdAt) rfl, hat "file_size" (.nat t.fileSize) rfl,
    hat "entries" (.nat t.entries) rfl, hat "bloom_bits_per_key" _ rfl,
    hat "bloom_hashes" (.nat t.bloomHashes) rfl, bind, Except.bind, hlib.getU64_nat h.id,
    hlib.getU64_nat h.minSeqno, hlib.getU64_nat h.maxSeqno, hlib.getU64_nat h.fileSize,
    hlib.getU64_nat h.entries, hlib.getU32_nat h.bloomHashes, hlib.getStr_str, hbits]
  cases t.bloomBitsPerKey.isFinite <;> rfl

theorem readTables_written (hlib : lib.Documented) {ts : List TableMeta} (h : ∀ t ∈ ts, t.Sized) :
    readTables lib (Json.writtenAll (ts.map TableMeta.toJson)) =
      if ts.all (·.bloomBitsPerKey.isFinite) then .ok ts else .error .typeError := by
  induction ts with
  | nil => rfl
  | cons t ts ih =>
    obtain ⟨ht, hts⟩ := List.forall_mem_cons.mp h
    rw [List.map_cons, Json.writtenAll, readTables, readTable_written hlib ht, ih hts,
      List.all_cons]
    cases t.bloomBitsPerKey.isFinite <;> cases ts.all (·.bloomBitsPerKey.isFinite) <;> rfl

theorem readManifest_written (hlib : lib.Documented) {m : Manifest} (h : m.Sized) {body : Bytes}
    (hdump : lib.dump m.toJson = .ok body) :
    readManifest lib body = if m.readable then .ok m else .error .typeError := by
  have hparse : lib.parse body = .ok m.toJson.written := hlib.parse_dump h.canonical hdump
  have hat : ∀ key v, (Json.writtenMembers [("epoch", .nat m.epoch), ("manifest_version", .nat 1),
      ("next_sst_id", .nat m.nextSstId),
      ("tables", .arr (m.tables.map TableMeta.toJson))]).lookup key = some v →
      lib.at m.toJson.written key = .ok v := fun key v hkey => hlib.at_obj hkey
  have hepoch : lib.valueU64 m.toJson.written "epoch" 0 = .ok m.epoch :=
    (hlib.valueU64_obj 0 rfl).trans (hlib.getU64_nat h.epoch)
  simp only [readManifest, hparse, hepoch, hat "next_sst_id" (.nat m.nextSstId) rfl,
    hat "tables" (.arr (Json.writtenAll (m.tables.map TableMeta.toJson))) rfl,
    hlib.getU64_nat h.nextSstId, hlib.elements_arr, readTables_written hlib h.tables, bind,
    Except.bind]
  rw [Manifest.readable]
  cases m.tables.all (·.bloomBitsPerKey.isFinite) <;> rfl

/-! ## What a load finds -/

/-- The manifest file is that of the manifest last published, if there is one. -/
def Dir.Holds (lib : Json.Library) (dir : Dir) : Option Manifest → Prop
  | none => dir.manifest = none
  | some m => m.Sized ∧ ∃ body, lib.dump m.toJson = .ok body ∧ dir.manifest = some body

/-- What a load makes of the manifest last published. -/
def restored (sort : AgeSort) : Option Manifest → Except Error Manifest
  | none => .ok {}
  | some m => if m.readable then .ok (m.normalize sort) else .error invalidManifest

variable {sort : AgeSort} {dir dir' : Dir} {published : Option Manifest}

theorem Dir.Holds.load (hlib : lib.Documented) (h : dir.Holds lib published) :
    loadOrCreate lib sort true dir = (⟨dir.manifest, none⟩, restored sort published) := by
  rcases published with _ | m
  · have hnone : dir.manifest = none := h
    simp only [loadOrCreate, hnone]
    rfl
  · obtain ⟨hsized, body, hdump, hfile⟩ := h
    simp only [loadOrCreate, hfile, readManifest_written hlib hsized hdump, restored]
    cases m.readable <;> rfl

theorem loadOrCreate_fst (lib : Json.Library) (sort : AgeSort) (opens : Bool) (dir : Dir) :
    (loadOrCreate lib sort opens dir).1 = ⟨dir.manifest, none⟩ := by
  rw [loadOrCreate]
  dsimp only
  split
  · rfl
  split
  · rfl
  · split <;> rfl

/-- A temporary file does not matter. -/
theorem Dir.Holds.temp (h : dir.Holds lib published) (temp : Option Bytes) :
    Dir.Holds lib { dir with temp := temp } published := by
  rcases published with _ | m <;> exact h

/-- Saving publishes the manifest or leaves the old file. -/
theorem Dir.Holds.save (h : dir.Holds lib published) {fault : Option SaveFault} {m : Manifest}
    (hm : m.Sized) {r : Except Raised Unit} (hs : save lib fault m dir = (dir', r)) :
    (r = .ok () → dir'.Holds lib (some m)) ∧ (r ≠ .ok () → dir'.Holds lib published) := by
  rw [ManifestFile.save] at hs
  rcases hdump : lib.dump m.toJson with e | body
  · rw [hdump] at hs
    obtain ⟨rfl, rfl⟩ := Prod.mk.inj hs
    exact ⟨nofun, fun _ => h⟩
  rw [hdump] at hs
  rcases fault with _ | fault
  · obtain ⟨rfl, rfl⟩ := Prod.mk.inj hs
    exact ⟨fun _ => ⟨hm, body, hdump, rfl⟩, fun hne => absurd rfl hne⟩
  · cases fault with
    | openTemp =>
      obtain ⟨rfl, rfl⟩ := Prod.mk.inj hs
      exact ⟨nofun, fun _ => h⟩
    | writeTemp left =>
      obtain ⟨rfl, rfl⟩ := Prod.mk.inj hs
      exact ⟨nofun, fun _ => h.temp left⟩
    | rename =>
      obtain ⟨rfl, rfl⟩ := Prod.mk.inj hs
      exact ⟨nofun, fun _ => h.temp (some body)⟩

/-! ## Runs -/

/-- The directory, the manifest in memory while a process runs, and the one last published. -/
structure Tracked where
  dir : Dir := {}
  memory : Option Manifest := none
  published : Option Manifest := none

/-- A load succeeds, throws or is cut by a crash. An edit happens in memory first; its save
succeeds, fails or is cut. -/
inductive Step (lib : Json.Library) (sort : AgeSort) : Tracked → Tracked → Prop
  | load {dir dir' m p} (h : loadOrCreate lib sort true dir = (dir', .ok m)) :
    Step lib sort ⟨dir, none, p⟩ ⟨dir', some m, p⟩
  | refused {dir dir' x p opens} (h : loadOrCreate lib sort opens dir = (dir', .error x)) :
    Step lib sort ⟨dir, none, p⟩ ⟨dir', none, p⟩
  | crashLoad {dir p} : Step lib sort ⟨dir, none, p⟩ ⟨{ dir with temp := none }, none, p⟩
  | saved {dir dir' m p fault} (e : Edit) (hm : (e.apply sort m).Sized)
      (h : save lib fault (e.apply sort m) dir = (dir', .ok ())) :
    Step lib sort ⟨dir, some m, p⟩ ⟨dir', some (e.apply sort m), some (e.apply sort m)⟩
  | failed {dir dir' m p fault x} (e : Edit) (hm : (e.apply sort m).Sized)
      (h : save lib fault (e.apply sort m) dir = (dir', .error x)) :
    Step lib sort ⟨dir, some m, p⟩ ⟨dir', some (e.apply sort m), p⟩
  | crashBefore {dir m p} (temp : Option Bytes) :
    Step lib sort ⟨dir, some m, p⟩ ⟨{ dir with temp := temp }, none, p⟩
  | crashAfter {dir m p body} (e : Edit) (hm : (e.apply sort m).Sized)
      (h : lib.dump (e.apply sort m).toJson = .ok body) :
    Step lib sort ⟨dir, some m, p⟩ ⟨⟨some body, none⟩, none, some (e.apply sort m)⟩

theorem Dir.Holds.loaded (h : dir.Holds lib published) {opens : Bool} {r : Except Error Manifest}
    (hload : loadOrCreate lib sort opens dir = (dir', r)) : dir'.Holds lib published := by
  have hdir := loadOrCreate_fst lib sort opens dir
  rw [hload] at hdir
  obtain rfl := hdir
  exact h.temp none

theorem Dir.Holds.step {s s' : Tracked} (h : s.dir.Holds lib s.published)
    (hs : Step lib sort s s') : s'.dir.Holds lib s'.published := by
  cases hs with
  | load hload => exact Dir.Holds.loaded h hload
  | refused hload => exact Dir.Holds.loaded h hload
  | crashLoad => exact h.temp none
  | saved e hm hsave => exact (Dir.Holds.save h hm hsave).1 rfl
  | failed e hm hsave => exact (Dir.Holds.save h hm hsave).2 nofun
  | crashBefore temp => exact h.temp temp
  | crashAfter e hm hdump => exact ⟨hm, _, hdump, rfl⟩

theorem holds_of_runs {s : Tracked} (h : Relation.ReflTransGen (Step lib sort) {} s) :
    s.dir.Holds lib s.published := by
  induction h with
  | refl => exact rfl
  | tail _ hstep ih => exact ih.step hstep

/-- Whatever saves, failures and crashes came before, a load finds the manifest that was published
last, or throws where bits per key in it were written as null. -/
theorem load_of_runs (hlib : lib.Documented) {s : Tracked}
    (h : Relation.ReflTransGen (Step lib sort) {} s) :
    loadOrCreate lib sort true s.dir = (⟨s.dir.manifest, none⟩, restored sort s.published) :=
  (holds_of_runs h).load hlib

/-! ## The table list of the engine -/

/-- What the engine knows of a table, without its file name. -/
def TableMeta.forget (t : TableMeta) : Sst.TableMeta where
  id := t.id
  minKey := t.minKey
  maxKey := t.maxKey
  minSeqno := t.minSeqno
  maxSeqno := t.maxSeqno
  createdAt := (Timestamps.parseIso8601Utc t.createdAt).toNat
  fileSize := t.fileSize
  entries := t.entries
  bloomBitsPerKey := t.bloomBitsPerKey
  bloomHashes := t.bloomHashes

def Manifest.forget (m : Manifest) : LsmKv.Manifest where
  nextSstId := m.nextSstId
  epoch := m.epoch
  tables := m.tables.map TableMeta.forget

/-- No two tables are of the same age. -/
def DistinctAges (ts : List TableMeta) : Prop := (ts.map (·.maxSeqno)).Nodup

/-- Tables of distinct ages have one order. -/
theorem forget_run {ts : List TableMeta} (h : DistinctAges ts) (sort' : TableSort) :
    sort'.run (ts.map TableMeta.forget) = (sort.run ts).map TableMeta.forget := by
  refine sort'.run_eq ((sort.perm ts).map _) (List.pairwise_map.mpr ?_)
  have hnodup : ((sort.run ts).map (·.maxSeqno)).Nodup := ((sort.perm ts).map _).nodup_iff.mpr h
  have hne := List.pairwise_map.mp hnodup
  exact ((sort.descending ts).and hne).imp (fun hab => lt_of_le_of_ne hab.1 hab.2.symm)

theorem foldl_nextId_forget (ts : List TableMeta) (n : ℕ) :
    (ts.map TableMeta.forget).foldl (fun n t => max n (t.id + 1)) n =
      ts.foldl (fun n t => max n (t.id + 1)) n := by
  rw [List.foldl_map]
  rfl

theorem forget_normalize {m : Manifest} (h : DistinctAges m.tables) (sort' : TableSort) :
    (m.normalize sort).forget = LsmKv.Manifest.restore sort' (some m.forget) := by
  have htables := @forget_run sort _ h sort'
  have hnext := foldl_nextId_forget (sort.run m.tables) m.nextSstId
  simp only [LsmKv.Manifest.restore, Manifest.forget, Manifest.normalize]
  rw [htables, hnext]

theorem readable_forget (published : Option Manifest) :
    LsmKv.Manifest.readable (published.map Manifest.forget) = published.all Manifest.readable := by
  rcases published with _ | m
  · rfl
  · exact List.all_map

/-- The engine's load is the file's. -/
theorem loadOrCreate_forget (h : ∀ m ∈ published, DistinctAges m.tables) (sort' : TableSort) :
    LsmKv.Manifest.loadOrCreate sort' (published.map Manifest.forget) =
      (restored sort published).map Manifest.forget := by
  rw [LsmKv.Manifest.loadOrCreate, readable_forget]
  rcases published with _ | m
  · rfl
  · rw [Option.all_some, restored, Option.map_some, ← forget_normalize (h m rfl) sort']
    cases m.readable <;> rfl

/-- An edit of the engine's table list. -/
inductive Edited (sort' : TableSort) (m : LsmKv.Manifest) : LsmKv.Manifest → Prop
  | addTable (info : Sst.TableMeta) : Edited sort' m (m.addTable info)
  | applyCompaction (ids : List ℕ) (added : Option Sst.TableMeta) :
    Edited sort' m (m.applyCompaction sort' ids added)

theorem forget_applyCompaction {m : Manifest} {ids : List ℕ} {added : Option TableMeta}
    (h : DistinctAges (m.tables.filter (fun t => t.id ∉ ids) ++ added.toList))
    (sort' : TableSort) : (applyCompaction sort ids added m).forget =
      LsmKv.Manifest.applyCompaction sort' ids (added.map TableMeta.forget) m.forget := by
  have hrun := @forget_run sort _ h sort'
  have hlist : (m.tables.filter (fun t => t.id ∉ ids) ++ added.toList).map TableMeta.forget =
      (m.tables.map TableMeta.forget).filter (fun t => t.id ∉ ids) ++
        (added.map TableMeta.forget).toList := by
    rw [List.map_append, List.filter_map]
    rcases added with _ | t <;> rfl
  rw [hlist] at hrun
  simp only [LsmKv.Manifest.applyCompaction, applyCompaction, Manifest.forget]
  rw [hrun]
  rcases added with _ | t <;> rfl

theorem Edit.edited {m : Manifest} (e : Edit) (h : DistinctAges (e.apply sort m).tables)
    (sort' : TableSort) : Edited sort' m.forget (e.apply sort m).forget := by
  cases e with
  | addTable info => exact .addTable info.forget
  | applyCompaction ids added =>
    have hages : DistinctAges (m.tables.filter (fun t => t.id ∉ ids) ++ added.toList) :=
      ((sort.perm _).map _).nodup_iff.mp h
    show Edited sort' m.forget (ManifestFile.applyCompaction sort ids added m).forget
    rw [forget_applyCompaction hages sort']
    exact .applyCompaction ids _

/-- The manifest in memory and the stored one, as the engine's model has them. -/
inductive EngineStep (sort' : TableSort) : Option LsmKv.Manifest × Option LsmKv.Manifest →
    Option LsmKv.Manifest × Option LsmKv.Manifest → Prop
  | load {m p} (h : LsmKv.Manifest.loadOrCreate sort' p = .ok m) :
    EngineStep sort' (none, p) (some m, p)
  | refused {x p} (h : LsmKv.Manifest.loadOrCreate sort' p = .error x) :
    EngineStep sort' (none, p) (none, p)
  | saved {m m' p} (h : Edited sort' m m') : EngineStep sort' (some m, p) (some m', some m')
  | failed {m m' p} (h : Edited sort' m m') : EngineStep sort' (some m, p) (some m', p)
  | down {m p} : EngineStep sort' (m, p) (none, p)
  | crashAfter {m m' p} (h : Edited sort' m m') : EngineStep sort' (some m, p) (none, some m')

/-- What the engine sees of the directory and the process. -/
def Tracked.forget (s : Tracked) : Option LsmKv.Manifest × Option LsmKv.Manifest :=
  (s.memory.map Manifest.forget, s.published.map Manifest.forget)

/-- A step that leaves no two tables of the same age. -/
def StepDistinct (lib : Json.Library) (sort : AgeSort) (s s' : Tracked) : Prop :=
  Step lib sort s s' ∧ (∀ m ∈ s'.memory, DistinctAges m.tables) ∧
    ∀ m ∈ s'.published, DistinctAges m.tables

theorem StepDistinct.engine {s s' : Tracked} (hlib : lib.Documented)
    (h : s.dir.Holds lib s.published) (hages : ∀ m ∈ s.published, DistinctAges m.tables)
    (hs : StepDistinct lib sort s s') (sort' : TableSort) :
    EngineStep sort' s.forget s'.forget := by
  obtain ⟨hstep, hmemory, hpublished⟩ := hs
  have hforget := @loadOrCreate_forget sort _ hages sort'
  cases hstep with
  | load hload =>
    rw [(Prod.mk.inj ((h.load hlib).symm.trans hload)).2] at hforget
    exact .load hforget
  | @refused dir dir' x p opens hload =>
    cases opens with
    | false => exact .down
    | true =>
      rw [(Prod.mk.inj ((h.load hlib).symm.trans hload)).2] at hforget
      exact .refused hforget
  | crashLoad => exact .down
  | saved e hm hsave => exact .saved (e.edited (hmemory _ rfl) sort')
  | failed e hm hsave => exact .failed (e.edited (hmemory _ rfl) sort')
  | crashBefore temp => exact .down
  | crashAfter e hm hdump => exact .crashAfter (e.edited (hpublished _ rfl) sort')

/-- The file and its process behave as the engine's model has it, loads that throw included, as
long as the ages of the tables are distinct. -/
theorem engine_of_runs (hlib : lib.Documented) {s : Tracked}
    (h : Relation.ReflTransGen (StepDistinct lib sort) {} s) (sort' : TableSort) :
    Relation.ReflTransGen (EngineStep sort') (none, none) s.forget := by
  have hall : Relation.ReflTransGen (EngineStep sort') (none, none) s.forget ∧
      ∀ m ∈ s.published, DistinctAges m.tables := by
    induction h with
    | refl => exact ⟨.refl, nofun⟩
    | tail hrun hstep ih =>
      have hholds := holds_of_runs (hrun.lift id (fun _ _ hs => hs.1))
      exact ⟨ih.1.tail (hstep.engine hlib hholds ih.2 sort'), hstep.2.2⟩
  exact hall.1

end

/-- One such sort. -/
def AgeSort.insertion : AgeSort where
  run ts := ts.insertionSort (fun a b => b.maxSeqno ≤ a.maxSeqno)
  perm ts := List.perm_insertionSort _ ts
  descending ts := by
    have : Std.Total (fun a b : TableMeta => b.maxSeqno ≤ a.maxSeqno) :=
      ⟨fun a b => le_total b.maxSeqno a.maxSeqno⟩
    have : IsTrans TableMeta (fun a b => b.maxSeqno ≤ a.maxSeqno) :=
      ⟨fun _ _ _ hab hbc => hbc.trans hab⟩
    exact List.pairwise_insertionSort _ ts

/-- The first flush of a store. -/
def firstTable (bits : Double) : TableMeta :=
  ⟨1, FileNames.sstFileName 1, [97], [98], 1, 2, Timestamps.utcNowIso8601 0, 214, 2, bits, 7⟩

def firstManifest (bits : Double) : Manifest := addTable (firstTable bits) {}

def firstBody (bits : String) : Bytes :=
  ("\x7b\n  \"epoch\": 1,\n  \"manifest_version\": 1,\n  \"next_sst_id\": 2,\n" ++
  "  \"tables\": [\n    \x7b\n      \"bloom_bits_per_key\": " ++ bits ++ ",\n" ++
  "      \"bloom_hashes\": 7,\n      \"created_at\": \"1970-01-01T00:00:00Z\",\n" ++
  "      \"entries\": 2,\n      \"file_name\": \"000001.sst\",\n" ++
  "      \"file_size\": 214,\n      \"id\": 1,\n      \"max_key\": \"b\",\n" ++
  "      \"max_seqno\": 2,\n      \"min_key\": \"a\",\n      \"min_seqno\": 1\n" ++
  "    \x7d\n  ]\n\x7d").toUTF8.toList

/-- A library that has a text for one document, and reads fields as documented. -/
theorem exists_library (doc : Json) (body : Bytes) :
    ∃ lib : Json.Library, lib.Documented ∧ lib.dump doc = .ok body := by
  classical
  let getU64 : Json → Except Json.Exception ℕ
    | .nat n => .ok n
    | _ => .error .typeError
  let lib : Json.Library :=
    { dump := fun v => if v = doc then .ok body else .error .typeError
      parse := fun b => if b = body then .ok doc.written else .error .parseError
      «at» := fun v key => match v with
        | .obj members => (members.lookup key).elim (.error .outOfRange) .ok
        | _ => .error .typeError
      getU64 := getU64
      getU32 := getU64
      getDouble := fun v => match v with
        | .float x => .ok x
        | _ => .error .typeError
      getStr := fun v => match v with
        | .str s => .ok s
        | _ => .error .typeError
      valueU64 := fun v key default => match v with
        | .obj members => (members.lookup key).elim (.ok default) getU64
        | _ => .error .typeError
      elements := fun v => match v with
        | .null => []
        | .arr vs => vs
        | .obj members => members.map Prod.snd
        | v => [v] }
  refine ⟨lib, ⟨fun {v b} _ hv => ?_, fun {members key v} h => ?_, fun _ => rfl, fun _ => rfl,
    fun _ => rfl, rfl, fun _ => rfl, fun {members key v} default h => ?_, fun _ => rfl⟩, if_pos rfl⟩
  · have hdoc : v = doc := by
      by_contra hne
      exact nomatch (if_neg hne).symm.trans hv
    subst hdoc
    obtain rfl := Except.ok.inj ((if_pos rfl).symm.trans hv)
    exact if_pos rfl
  · show (members.lookup key).elim _ _ = _
    rw [h]
    rfl
  · show (members.lookup key).elim _ _ = _
    rw [h]
    rfl

/-- The rename of the first save fails; the process edits again after a restart, publishes, and
crashes while it writes the next temporary file. -/
theorem tornSave {lib : Json.Library} {bits : Double} {body : Bytes}
    (hdump : lib.dump (firstManifest bits).toJson = .ok body) :
    Relation.ReflTransGen (StepDistinct lib .insertion) {}
      ⟨⟨some body, some [123]⟩, none, some (firstManifest bits)⟩ := by
  have hsized : (firstManifest bits).Sized := by
    have hsmall : ∀ n < 2 ^ 32, n < 2 ^ 64 := fun n hn => hn.trans (by decide)
    refine ⟨hsmall 2 (by decide), hsmall 1 (by decide), fun t ht => ?_⟩
    obtain rfl := List.mem_singleton.mp ht
    exact ⟨hsmall 1 (by decide), hsmall 1 (by decide), hsmall 2 (by decide),
      hsmall 214 (by decide), hsmall 2 (by decide), (by decide : 7 < 2 ^ 32)⟩
  have hfails : save lib (some .rename) (firstManifest bits) {} =
      (⟨none, some body⟩, .error (.error ⟨.ioFailure, "cannot publish manifest"⟩)) := by
    rw [save, hdump]
  have hsaves : save lib none (firstManifest bits) {} = (⟨some body, none⟩, .ok ()) := by
    rw [save, hdump]
  have hfresh : ∀ m ∈ some ({} : Manifest), DistinctAges m.tables := by
    intro m hm
    obtain rfl := Option.mem_some.mp hm
    exact List.nodup_nil
  have hone : ∀ m ∈ some (firstManifest bits), DistinctAges m.tables := by
    intro m hm
    obtain rfl := Option.mem_some.mp hm
    exact List.nodup_singleton _
  have hnone : ∀ m ∈ (none : Option Manifest), DistinctAges m.tables := nofun
  exact (((((Relation.ReflTransGen.single ⟨.load rfl, hfresh, hnone⟩).tail
    ⟨.failed (.addTable (firstTable bits)) hsized hfails, hone, hnone⟩).tail
    ⟨.crashBefore (some body), hnone, hnone⟩).tail ⟨.load rfl, hfresh, hnone⟩).tail
    ⟨.saved (.addTable (firstTable bits)) hsized hsaves, hone, hone⟩).tail
    ⟨.crashBefore (some [123]), hnone, hone⟩

/-- With ten bits per key the table is loaded; where they are infinite the load throws. -/
theorem load_of_runs_tornSave :
    (∃ lib : Json.Library, lib.dump (firstManifest .ten).toJson = .ok (firstBody "10.0") ∧
      loadOrCreate lib .insertion true ⟨some (firstBody "10.0"), some [123]⟩ =
        (⟨some (firstBody "10.0"), none⟩, .ok ((firstManifest .ten).normalize .insertion))) ∧
    ∃ lib : Json.Library, lib.dump (firstManifest .infinity).toJson = .ok (firstBody "null") ∧
      loadOrCreate lib .insertion true ⟨some (firstBody "null"), some [123]⟩ =
        (⟨some (firstBody "null"), none⟩, .error invalidManifest) := by
  constructor
  · obtain ⟨lib, hlib, hdump⟩ := exists_library (firstManifest .ten).toJson (firstBody "10.0")
    exact ⟨lib, hdump, load_of_runs hlib ((tornSave hdump).lift id (fun _ _ hs => hs.1))⟩
  · obtain ⟨lib, hlib, hdump⟩ := exists_library (firstManifest .infinity).toJson (firstBody "null")
    exact ⟨lib, hdump, load_of_runs hlib ((tornSave hdump).lift id (fun _ _ hs => hs.1))⟩

theorem engine_of_runs_tornSave :
    Relation.ReflTransGen (EngineStep .insertion) (none, none)
      (none, some (firstManifest .infinity).forget) := by
  obtain ⟨lib, hlib, hdump⟩ := exists_library (firstManifest .infinity).toJson (firstBody "null")
  exact engine_of_runs hlib (tornSave hdump) .insertion

end ManifestFile
end LsmKv
