import LsmKv.AutoCompaction
import LsmKv.ByteEngine

/-!
# Crashes over bytes

A crash keeps the synced bytes of each segment and any prefix of the rest, so it may cut a record
in two. Wherever in a call or in an open it comes, what it leaves stands for something that a crash
leaves of the store over records and rows.
-/

namespace LsmKv
open Sst (TableMeta Images Bounds)
open WalFormat OrderedMap

/-! ## Where a crash may come -/

/-- What a crash leaves of a directory: of each segment a prefix with all that was synced. -/
structure ByteDisk.Left (d d' : ByteDisk) : Prop where
  log : Crash d.wal d'.wal
  rest : d' = { d with wal := d'.wal }

namespace ByteEngine

/-- The engine over the records and rows that the bytes read as. -/
def read (s : ByteEngine) : Engine :=
  s.engine.swap
    { s.engine.wal with dir := s.log.dir.map (fun f => .durable (Wal.scanSegment f.data).2) }
    (s.files.map (fun file => ((Sst.scanSstable (some file)).toOption.elim ∅
      (fun rows => (Process.mergeRows 0 [rows]).map))))

/-- Calls that are orderly by what the bytes read as, and within the widths of their fields. -/
def Orderly (s : ByteEngine) (c : Call) : Prop := LsmKv.Orderly s.read c ∧ s.Fits c

/-- `remove_segments_covered` as it goes from segment to segment. -/
def removing (s : ByteEngine) : List ByteDisk :=
  (List.range (s.log.dir.keys.length + 1)).map (fun n =>
    { s.disk with wal := (s.log.removeFirst s.engine.manifest.maxSeqno n).dir })

/-- The directories a flush leads through. -/
def flushing (now : ℕ) (s : ByteEngine) : List ByteDisk :=
  match s.engine.immutables.getLast? with
  | none => []
  | some target =>
    { s.disk with temps := s.engine.manifest.nextSstId :: s.engine.temps } ::
      match s.writeSstable target with
      | .error _ => []
      | .ok (placed, r) => placed.disk :: match placed.engine.publishFlush (r.toMeta now) with
        | (_, .error _) => []
        | (e, .ok _) => removing { placed with engine := e }

/-- The deletion of compacted inputs as it goes from table to table. -/
def deleting (removed : List TableMeta) (s : ByteEngine) : List ByteDisk :=
  (List.range (removed.length + 1)).map (fun n => ((removed.take n).foldl deleteInput s).disk)

/-- The directories a compaction leads through. -/
def compacting (inputs : Option (List ℕ)) (now created : ℕ) (s : ByteEngine) : List ByteDisk :=
  match s.engine.ensureOpen with
  | .error _ => []
  | .ok _ => match s.engine.chooseInputs inputs with
    | .error _ | .ok none => []
    | .ok (some ids) => match s.mergeInputs ids now with
      | .error _ => []
      | .ok final =>
        { s.disk with temps := s.engine.manifest.nextSstId :: s.engine.temps } ::
          match s.writeOutput final created with
          | .error _ => []
          | .ok (placed, added) => placed.disk ::
            match placed.engine.publishCompaction ids added with
            | (_, .error _) => []
            | (e, .ok removed) => deleting removed { placed with engine := e }

/-- A point of a call, which in a write may be inside a record or inside the header of a new
segment: the directory there, the records that are to be in its log, and those of them that the
call brings. -/
inductive Within (s : ByteEngine) : Call → ByteDisk → List Record → List Record → Prop
  | put (append_cut roll_cut : Wal.Cut) {key value : Bytes} : Within s (.put key value)
      (s.write append_cut roll_cut false key value).1.disk
      (Wal.replayed s.log.dir ++ (s.accepted (.put key value)).toList)
      (s.accepted (.put key value)).toList
  | remove (append_cut roll_cut : Wal.Cut) {key : Bytes} : Within s (.remove key)
      (s.write append_cut roll_cut true key []).1.disk
      (Wal.replayed s.log.dir ++ (s.accepted (.remove key)).toList)
      (s.accepted (.remove key)).toList
  | flush {now : ℕ} {d : ByteDisk} (h : d ∈ s.flushing now) :
    Within s (.flushOne now) d (Wal.replayed d.wal) []
  | compact {inputs : Option (List ℕ)} {now created : ℕ} {d : ByteDisk}
      (h : d ∈ s.compacting inputs now created) :
    Within s (.runCompaction inputs now created) d (Wal.replayed d.wal) []

/-- A point of a run, between two calls or within one. -/
inductive Point (ok : ByteEngine → Call → Prop) (s : ByteEngine) :
    ByteDisk → List Record → List Record → Prop
  | between : Point ok s s.disk (Wal.replayed s.log.dir) []
  | within {c d logged added} (hc : ok s c) (h : s.Within c d logged added) :
    Point ok s d logged added

end ByteEngine

/-- How many of the records that were to be in the log are gone. -/
def ByteDisk.lost (logged : List Record) (d : ByteDisk) : ℕ :=
  logged.length - (Wal.replayed d.wal).length

/-- `open` has come to the log: the manifest is loaded and every footer is sound. -/
def ByteDisk.Checked (config : Config) (d : ByteDisk) : Prop :=
  ∃ m rs, Manifest.loadOrCreate config.sort d.manifest = .ok m ∧
    Process.openReaders (ByteEngine.listed config d) false m.tables = .ok rs

/-- The directory at some point inside `open`. -/
inductive ByteOpening (config : Config) (d : ByteDisk) : ByteDisk → Prop where
  | temps (gone : List ℕ) : ByteOpening config d { d with temps := d.temps.filter (· ∉ gone) }
  | orphans {m : Manifest} (h : Manifest.loadOrCreate config.sort d.manifest = .ok m)
    (gone : List ℕ) : ByteOpening config d { d with
      temps := []
      files := d.files.filter (fun id _ =>
        m.tables.any (fun t => t.id = id) || decide (id ∉ gone)) }
  | scan (h : d.Checked config) (n : ℕ) : ByteOpening config d { d with
      wal := Wal.repairFirst n d.wal
      temps := []
      files := ByteEngine.listed config d }
  | log (h : d.Checked config) (cut : Wal.Cut) : ByteOpening config d { d with
      wal := ((Wal.create d.wal config.walFsyncEveryN config.walSegmentRollBytes).open cut).1.dir
      temps := []
      files := ByteEngine.listed config d }

/-! ## What is read of the bytes -/

section
variable {s : ByteEngine} {e : Engine} {M D : List LiveTable} {rs : List Record}

theorem ByteEngine.Renders.replayed (h : s.Renders e) (hst : e.Storable) :
    Wal.replayed s.log.dir = WalLog.records e.wal.dir := by
  rw [h.log]
  exact replayed_render (fun r hr => (hst.records r hr).readable)

theorem DirReads.replayed {dir : OrderedMap ℕ (DurableFile UInt8)}
    {w : OrderedMap ℕ (DurableFile Record)} (h : DirReads dir w) :
    Wal.replayed dir = WalLog.records w := by
  show dir.entries.flatMap (fun p => (Wal.scanSegment p.2.data).2) =
    w.entries.flatMap (fun p => p.2.data)
  obtain ⟨hfiles, -⟩ := h
  generalize dir.entries = ps at hfiles ⊢
  generalize w.entries = qs at hfiles ⊢
  induction hfiles with
  | nil => rfl
  | cons hpq _ ih => rw [List.flatMap_cons, List.flatMap_cons, hpq.2.replay, ih]

theorem ByteEngine.Renders.read (h : s.Renders e) (hst : e.Storable) :
    ∃ w, s.read = e.swap w e.files ∧ WalLog.records w.dir = WalLog.records e.wal.dir := by
  obtain ⟨w, files, heng⟩ := h.engine
  have hfiles : s.files.map (fun file => ((Sst.scanSstable (some file)).toOption.elim ∅
      (fun rows => (Process.mergeRows 0 [rows]).map))) = e.files := by
    refine ext_find? (fun id => ?_)
    have hfile := h.files id
    rw [find?_map]
    rcases hbytes : s.files.find? id with _ | file <;>
      rcases hrows : e.files.find? id with _ | r <;> rw [hbytes, hrows] at hfile
    · rfl
    · cases hfile
    · cases hfile
    · have hscan := (Option.rel_some_some.mp hfile).scan
      have hmerge : (Process.mergeRows 0 [r.entries]).map = r := by
        rw [show [r.entries] = [r].map (·.entries) from rfl, mergeRows_eq, Memtable.map_merged]
        exact ext_find? (fun k => find?_overlay [r] k |>.trans (by simp [firstHit]))
      rw [Option.map_some, hscan]
      exact congrArg some hmerge
  refine ⟨{ s.engine.wal with
    dir := s.log.dir.map (fun f => .durable (Wal.scanSegment f.data).2) }, ?_, ?_⟩
  · rw [ByteEngine.read, hfiles, heng]
    rfl
  · show WalLog.records (s.log.dir.map (fun f => .durable (Wal.scanSegment f.data).2)) = _
    rw [WalLog.records, entries_map, List.flatMap_map]
    exact h.replayed hst

theorem ByteEngine.Renders.orderly (h : s.Renders e) (hst : e.Storable) {c : Call}
    (hc : LsmKv.Orderly s.read c) : LsmKv.Orderly e c := by
  obtain ⟨w, hread, hrecords⟩ := h.read hst
  rw [hread] at hc
  cases c with
  | put key value => exact hc
  | remove key => exact hc
  | flushOne now => trivial
  | runCompaction inputs now created =>
    intro ids hids
    obtain ⟨hdesc, hdrops⟩ := hc ids hids
    refine ⟨hdesc, fun t ht rows hrows p hp hfind hgone hremains =>
      hdrops t ht rows hrows p hp hfind hgone ?_⟩
    rcases hremains with ⟨r, hr, hkey⟩ | hmem
    · exact .inl ⟨r, hrecords ▸ hr, hkey⟩
    · exact .inr hmem

/-! ## Inside a write -/

/-- A roll that succeeds is a complete one. -/
theorem rollSegment_of_ok {w w' : Wal UInt8} {cut : Wal.Cut} {u : Unit}
    (h : w.rollSegment cut = (w', .ok u)) : w.rollSegment .never = (w', .ok u) := by
  cases cut with
  | rollFlush | rollSync | rollOpen | header | headerFlush | headerSync => cases h
  | never | record | recordSpill | recordFlush | recordSync => exact h

theorem appendRecord_of_ok {w w' : Wal UInt8} {cut : Wal.Cut} {r : Record} {n : ℕ}
    (h : w.appendRecord cut r = (w', .ok n)) : w.appendRecord .never r = (w', .ok n) := by
  cases cut with
  | record | recordSpill => cases h
  | recordFlush =>
    rw [Wal.appendRecord_recordFlush] at h
    split at h
    · cases h
    · exact h
  | recordSync =>
    rw [Wal.appendRecord_recordSync] at h
    split at h
    · cases h
    · exact h
  | never | rollFlush | rollSync | rollOpen | header | headerFlush | headerSync => exact h

/-- An append that succeeds is a complete one. -/
theorem append_of_ok {w w' : Wal UInt8} {cut : Wal.Cut} {del : Bool} {key value : Bytes} {n : ℕ}
    (h : w.append cut del key value = (w', .ok n)) :
    w.append .never del key value = (w', .ok n) := by
  rw [Wal.append] at h ⊢
  rcases hcheck : Wal.checkAppend w.isOpen key value with x | u <;> rw [hcheck] at h
  · cases h
  dsimp only at h ⊢
  split at h
  · rename_i hroll
    rw [if_pos hroll]
    rcases hr : w.rollSegment cut with ⟨w₁, x | u⟩ <;> rw [hr] at h
    · cases h
    · rw [rollSegment_of_ok hr]
      exact appendRecord_of_ok h
  · rename_i hroll
    rw [if_neg hroll]
    exact appendRecord_of_ok h

/-- The request of a write. -/
def requestOf (del : Bool) (key value : Bytes) : Wal.Request :=
  if del then .del key else .put key value

theorem request_requestOf {del : Bool} {value : Bytes} (h : del = true → value = []) (key : Bytes)
    (cut : Wal.Cut) (w : Wal UInt8) :
    w.request cut (requestOf del key value) = w.append cut del key value := by
  cases del with
  | false => rfl
  | true =>
    obtain rfl := h rfl
    rfl

theorem record_requestOf {del : Bool} {value : Bytes} (h : del = true → value = []) (key : Bytes)
    (seqno : ℕ) : (requestOf del key value).record seqno = ⟨del, key, value, seqno⟩ := by
  cases del with
  | false => rfl
  | true =>
    obtain rfl := h rfl
    rfl

section
variable {l : Wal Record}

theorem records_makeRoom (hl : WalLog.Live l) (r : Record) :
    WalLog.records (WalLog.makeRoom r l).dir = WalLog.records l.dir := by
  rw [WalLog.makeRoom]
  split
  · exact WalLog.records_rollSegment hl
  · rfl

/-- An append keeps what is on stable storage. -/
theorem durableRecords_appended (hl : WalLog.Live l) (r : Record) :
    WalLog.durableRecords l.dir <+:
      WalLog.durableRecords (WalLog.appendRecord r (WalLog.makeRoom r l)).dir := by
  refine List.IsPrefix.trans ?_ (durableRecords_appendRecord (live_makeRoom hl r) r)
  rw [WalLog.makeRoom]
  split
  · rw [durableRecords_rollSegment hl]
    exact durableRecords_le hl
  · exact List.prefix_rfl

end

theorem log_maybeRotate (cut : Wal.Cut) (t : ByteStore) :
    (t.maybeRotate cut).1.log = t.log ∨ (t.maybeRotate cut).1.log = (t.log.roll cut).1 := by
  rw [ByteStore.maybeRotate]
  split
  · exact .inl rfl
  split
  · exact .inl rfl
  · rcases hres : t.log.roll cut with ⟨log, x | id⟩ <;> exact .inr rfl

/-- What a crash inside a write leaves of the log. -/
theorem ByteEngine.Renders.write_outcome (h : s.Renders e) (hst : e.Storable)
    (hlog : WalLog.Intact e.wal) {del : Bool} {key value : Bytes}
    (hroom : e.wal.lastSeqno + 1 < 2 ^ 64)
    (hfit : kMinPayload + key.length + value.length ≤ kMaxPayload)
    (hvalue : del = true → value = []) {append_cut roll_cut : Wal.Cut}
    {dir : OrderedMap ℕ (DurableFile UInt8)}
    (hc : Crash (s.write append_cut roll_cut del key value).1.log.dir dir) :
    ∃ w, DirReads dir w ∧ Outcome e.wal ((e.write del key value).2.toOption.map
      (fun n => (⟨del, key, value, n⟩ : Record))).toList w := by
  have hl := hlog.toLive
  have hold : ∀ r ∈ WalLog.records e.wal.dir, Readable r := fun r hr => (hst.records r hr).readable
  rcases write_eq del key value e with ⟨x, hcheck, heq⟩ | ⟨hcheck, heq⟩
  · rw [heq]
    rw [h.write_refused hcheck, h.log] at hc
    exact (stage_self hl []).crash (by simpa using hold) hc
  rw [heq]
  set r : Record := e.nextRecord del key value
  have hr : (⟨del, key, value, e.wal.lastSeqno + 1⟩ : Record) = r := rfl
  have hnew : ∀ z ∈ WalLog.records e.wal.dir ++ [r], Readable z := by
    intro z hz
    rcases List.mem_append.mp hz with hz | hz
    · exact hold z hz
    · obtain rfl := List.mem_singleton.mp hz
      exact ⟨hfit, hroom, hvalue⟩
  obtain ⟨-, -, -, happend⟩ := checkWrite_ok hcheck
  obtain ⟨w, hstage⟩ := stage_request hl append_cut (requestOf del key value)
  rw [record_requestOf hvalue, Nat.mod_eq_of_lt hroom, request_requestOf hvalue, ← h.log] at hstage
  show ∃ w, DirReads dir w ∧ Outcome e.wal [r] w
  rw [ByteEngine.write, h.write_appends hcheck] at hc
  rcases hres : s.log.append append_cut del key value with ⟨log, x | n⟩ <;>
    rw [hres] at hc hstage
  · exact hstage.crash hnew hc
  have hcomplete := append_of_ok hres
  have hwhole := append_render_of_check hl hroom happend del
  rw [← h.log, hcomplete] at hwhole
  obtain ⟨hwal, hn⟩ := Prod.mk.inj hwhole
  obtain rfl := Except.ok.inj hn
  rw [hr] at hwal
  have hlive : WalLog.Live (WalLog.appendRecord r (WalLog.makeRoom r e.wal)) :=
    (live_makeRoom hl r).appendRecord r
  have hrecords : WalLog.records (WalLog.appendRecord r (WalLog.makeRoom r e.wal)).dir =
      WalLog.records e.wal.dir ++ [r] := by
    rw [WalLog.records_appendRecord (live_makeRoom hl r), records_makeRoom hl]
  dsimp only at hc hstage
  have hrotate := log_maybeRotate roll_cut
    ⟨s.engine.apply ⟨del, key, value, e.wal.lastSeqno + 1⟩, log⟩
  have hc' : Crash (ByteStore.maybeRotate roll_cut
      ⟨s.engine.apply ⟨del, key, value, e.wal.lastSeqno + 1⟩, log⟩).1.log.dir dir := by
    rcases hres' : ByteStore.maybeRotate roll_cut
      ⟨s.engine.apply ⟨del, key, value, e.wal.lastSeqno + 1⟩, log⟩ with ⟨t, x | u⟩ <;>
      rw [hres'] at hc <;> exact hc
  rcases hrotate with hstay | hroll
  · rw [hstay] at hc'
    exact hstage.crash hnew hc'
  -- the rotation rolls a log that holds the record
  rw [hroll, hwal] at hc'
  obtain ⟨w', hstage'⟩ := stage_roll hlive roll_cut
  obtain ⟨w'', hreads, hout⟩ := hstage'.crash (by rw [List.append_nil, hrecords]; exact hnew) hc'
  refine ⟨w'', hreads, hout.stable, (durableRecords_appended hl r).trans hout.durable, ?_⟩
  have hwithin := hout.within
  rwa [List.append_nil, hrecords] at hwithin

/-! ## What a crash leaves -/

theorem Engine.Storable.disk_left (h : e.Storable) (hh : Holds e M D)
    {w : OrderedMap ℕ (DurableFile Record)}
    (hw : ∀ r ∈ WalLog.records w, StorableRecord r) : Disk.Storable { e.disk with wal := w } :=
  have hdisk := h.disk hh
  ⟨⟨hdisk.loads.1, hdisk.loads.2⟩, hw, hdisk.files, hdisk.bounds⟩

theorem Outcome.left {l : Wal Record} {w : OrderedMap ℕ (DurableFile Record)}
    (h : Outcome l [] w) : Left l.dir w :=
  ⟨h.stable, h.durable, by simpa using h.within⟩

/-- Whatever a crash inside a write leaves of the log, it and the tables tell what is left of the
records. -/
theorem Endures.write_outcome (h : Endures rs e M D) {del : Bool} {key value : Bytes}
    (hfit : kMinPayload + key.length + value.length ≤ kMaxPayload)
    {added : List Record} (hadded : added = ((e.write del key value).2.toOption.map
      (fun n => (⟨del, key, value, n⟩ : Record))).toList)
    {w : OrderedMap ℕ (DurableFile Record)} (ho : Outcome e.wal added w) :
    (WalLog.records e.wal.dir ++ added).length - (WalLog.records w).length <
        added.length + max 1 e.config.walFsyncEveryN ∧
      ∃ D', Disk.Tells (lastWritten ((rs ++ added).rdrop
        ((WalLog.records e.wal.dir ++ added).length - (WalLog.records w).length)))
        { e.disk with wal := w } D' := by
  obtain ⟨S, ps, q, htells⟩ := h.tells
  have hD : e.disk.Holds D := htells.holds.disk
  rcases write_eq del key value e with ⟨x, -, heq⟩ | ⟨-, heq⟩
  · rw [heq] at hadded
    obtain rfl : added = [] := hadded
    rw [List.append_nil, List.append_nil, List.length_nil, Nat.zero_add]
    exact h.disk rfl hD { e.disk with wal := w } ⟨ho.left, rfl⟩
  rw [heq] at hadded
  set r : Record := e.nextRecord del key value
  obtain rfl : added = [r] := hadded
  have hlive : WalLog.Live (WalLog.makeRoom r e.wal) := live_makeRoom htells.log.toLive r
  have hrecords : WalLog.records (WalLog.appendRecord r (WalLog.makeRoom r e.wal)).dir =
      WalLog.records e.wal.dir ++ [r] := by
    rw [WalLog.records_appendRecord hlive, records_makeRoom htells.log.toLive]
  rcases List.prefix_concat_iff.mp ho.within with hall | hsome
  · -- the record has reached the disk
    have hfits : WalLog.Fits r := hfit
    have happend := (h.makeRoom r).append hfits (nextRecord_seqno del key value e)
    have hsame : WalLog.records (WalLog.appendRecord r (WalLog.makeRoom r e.wal)).dir =
        WalLog.records w := hrecords.trans hall.symm
    have hleft : Left (WalLog.appendRecord r (WalLog.makeRoom r e.wal)).dir w :=
      ⟨ho.stable, hsame ▸ durableRecords_le (hlive.appendRecord r), hsame ▸ List.prefix_rfl⟩
    have hcrash := happend.disk (d := { e.disk with
      wal := (WalLog.appendRecord r (WalLog.makeRoom r e.wal)).dir }) rfl (hD.of_eq rfl hD.files)
      { e.disk with wal := w } ⟨hleft, rfl⟩
    rw [Disk.lost, hrecords] at hcrash
    exact ⟨hcrash.1.trans_le (Nat.le_add_left _ _), hcrash.2⟩
  · -- nothing of it is read back
    have hcrash := h.disk rfl hD { e.disk with wal := w } ⟨⟨ho.stable, ho.durable, hsome⟩, rfl⟩
    have hlost : (WalLog.records e.wal.dir ++ [r]).length - (WalLog.records w).length =
        e.disk.lost { e.disk with wal := w } + 1 := by
      have hle := hsome.length_le
      rw [List.length_append, List.length_singleton]
      show _ = (WalLog.records e.wal.dir).length - (WalLog.records w).length + 1
      omega
    rw [hlost, List.rdrop_concat_succ, List.length_singleton, Nat.add_comm]
    exact ⟨Nat.add_lt_add_left hcrash.1 1, hcrash.2⟩

/-! ## Inside an open -/

section
variable {b b' b₁ : ByteDisk} {d : Disk} {V : Bytes → Option Bytes}

theorem Disk.Tells.left_refl (h : d.Tells V D) : LsmKv.Left d.wal d.wal :=
  ⟨h.log, WalLog.durableRecords_of_sealed h.log ▸ List.prefix_rfl, List.prefix_rfl⟩

/-- A directory that is cleaned, and whose log is left as it was, still stands for what was
written. -/
theorem ByteDisk.Stands.clean (h : b.Stands d) (hst : d.Storable) (ht : d.Tells V D)
    (config : Config) (temps : List ℕ) (keep : ℕ → Bool)
    (hkeep : ∀ id, (Manifest.restore config.sort d.manifest).tables.any
      (fun t => t.id = id) = true → keep id = true)
    {files : OrderedMap ℕ Bytes} (hfiles : files = b.files.filter (fun id _ => keep id))
    {dir : OrderedMap ℕ (DurableFile UInt8)} {w : OrderedMap ℕ (DurableFile Record)}
    (hreads : DirReads dir w) (hleft : LsmKv.Left d.wal w) :
    ∃ d', ByteDisk.Stands { b with wal := dir, temps := temps, files := files } d' ∧
      d'.Storable ∧ d'.Tells V D := by
  have htells := ht.clean config temps (fun id _ => keep id) (fun id _ => hkeep id)
  have hkept : ∀ id rows, (d.files.filter (fun id _ => keep id)).find? id = some rows →
      d.files.find? id = some rows := by
    intro id rows hrows
    rw [find?_filter, Option.filter_eq_some_iff] at hrows
    exact hrows.1
  refine ⟨{ d with wal := w, temps := temps, files := d.files.filter (fun id _ => keep id) },
    ⟨⟨h.rest.manifest, rfl, h.rest.paused, ?_⟩, hreads⟩,
    ⟨⟨hst.loads.1, hst.loads.2⟩, ?_, ?_, ?_⟩,
    htells.left ⟨hleft, rfl⟩⟩
  · rw [hfiles]
    exact rel_filter h.rest.files keep
  · exact fun r hr => hst.records r (hleft.kept.subset hr)
  · exact fun id rows hrows => hst.files id rows (hkept id rows hrows)
  · exact fun t hlisted rows hrows => hst.bounds t hlisted rows (hkept t.id rows hrows)

/-- A crash inside `open` loses nothing. -/
theorem ByteDisk.Stands.opening (h : b.Stands d) (hst : d.Storable) (ht : d.Tells V D)
    {config : Config} (ho : ByteOpening config b b₁) (hleft : b₁.Left b') :
    ∃ d', b'.Stands d' ∧ d'.Storable ∧ d'.Tells V D := by
  have hkeep : ∀ id, (Manifest.restore config.sort d.manifest).tables.any
      (fun t => t.id = id) = true →
      (ByteEngine.loaded config b).manifest.tables.any (fun t => t.id = id) = true := by
    rw [← h.rest.manifest]
    exact fun _ hid => hid
  obtain ⟨hlog, hrest⟩ := hleft
  rw [hrest]
  cases ho with
  | temps gone =>
    rw [h.log.crash hlog]
    refine h.clean hst ht config _ (fun _ => true) (fun _ _ => rfl) ?_ h.log ht.left_refl
    exact (ext_find? (fun id => by rw [find?_filter]; cases b.files.find? id <;> rfl)).symm
  | orphans hload gone =>
    obtain rfl := restore_of_loadOrCreate hload
    rw [h.log.crash hlog]
    refine h.clean hst ht config [] (fun id =>
      (ByteEngine.loaded config b).manifest.tables.any (fun t => t.id = id) || decide (id ∉ gone))
      (fun id hid => ?_) rfl h.log ht.left_refl
    rw [hkeep id hid]
    rfl
  | scan _ n =>
    have hscanned := h.log.repairFirst n
    rw [hscanned.crash hlog]
    exact h.clean hst ht config [] _ hkeep rfl hscanned ht.left_refl
  | log _ cut =>
    have hreadable : ∀ r ∈ WalLog.records d.wal, Readable r := fun r hr =>
      (hst.records r hr).readable
    obtain ⟨w, hreads, hout⟩ := open_outcome
      (b := Wal.create b.wal config.walFsyncEveryN config.walSegmentRollBytes)
      (l := Wal.create d.wal config.walFsyncEveryN config.walSegmentRollBytes) h.log rfl ht.log
      ht.ascending hreadable (create_fsyncEveryN_pos _ _ _) rfl cut hlog
    exact h.clean hst ht config [] _ hkeep rfl hreads hout.left

end

/-! ## Inside a flush and a compaction -/

/-- A directory of bytes on the way through a call is where one of records and rows is. -/
structure ByteDisk.Shows (b : ByteDisk) (d : Disk) : Prop where
  rest : b.Matches d
  log : ∃ l : Wal Record, WalLog.Live l ∧ b.wal = (render l).dir ∧ d.wal = l.dir
  storable : d.Storable

/-- What a crash leaves of the two. -/
theorem ByteDisk.Shows.crash {b b' : ByteDisk} {d : Disk} (h : b.Shows d) (hleft : b.Left b') :
    ∃ d', b'.Stands d' ∧ d'.Storable ∧ d.Left d' ∧ b'.lost (Wal.replayed b.wal) = d.lost d' := by
  obtain ⟨l, hlive, hbytes, hrows⟩ := h.log
  have hreadable : ∀ r ∈ WalLog.records l.dir, Readable r := fun r hr =>
    (h.storable.records r (hrows ▸ hr)).readable
  obtain ⟨w, hreads, hout⟩ := (stage_self hlive []).crash (by simpa using hreadable)
    (hbytes ▸ hleft.log)
  have hkept : LsmKv.Left d.wal w := hrows ▸ hout.left
  refine ⟨{ d with wal := w }, ⟨?_, hreads⟩,
    ⟨⟨h.storable.loads.1, h.storable.loads.2⟩,
      fun r hr => h.storable.records r (hkept.kept.subset hr), h.storable.files, h.storable.bounds⟩,
    ⟨hkept, rfl⟩, ?_⟩
  · rw [hleft.rest]
    exact ⟨h.rest.manifest, h.rest.temps, h.rest.paused, h.rest.files⟩
  · rw [ByteDisk.lost, hbytes, hreads.replayed, render_dir, replayed_render hreadable, Disk.lost,
      hrows]

theorem ByteEngine.Renders.matches (h : s.Renders e) (dir : OrderedMap ℕ (DurableFile UInt8))
    (w : OrderedMap ℕ (DurableFile Record)) :
    ByteDisk.Matches { s.disk with wal := dir } { e.disk with wal := w } := by
  exact ⟨h.same (·.stored) (fun _ _ => rfl), h.same (·.temps) (fun _ _ => rfl),
    h.same (·.paused) (fun _ _ => rfl), h.files⟩

/-- Tables that are listed on disk are listed in memory, or open. -/
def Engine.Lists (e : Engine) : Prop := e.disk.storedTables ⊆ e.manifest.tables ++ e.readers

theorem Holds.lists (hh : Holds e M D) : e.Lists := fun _ ht =>
  List.mem_append_right _ (hh.stored.mem_iff.mp ht)

theorem ByteEngine.Renders.shows (h : s.Renders e) (hst : e.Storable) (hlists : e.Lists)
    (hl : WalLog.Live e.wal) : s.disk.Shows e.disk :=
  ⟨h.matches _ _, ⟨e.wal, hl, by rw [← h.log]; rfl, rfl⟩, hst.loads.disk, hst.records, hst.files,
    fun t ht => hst.bounds t (hlists ht)⟩

theorem ByteEngine.Renders.shows_temps (h : s.Renders e) (hst : e.Storable) (hlists : e.Lists)
    (hl : WalLog.Live e.wal) :
    ByteDisk.Shows { s.disk with temps := s.engine.manifest.nextSstId :: s.engine.temps }
      { e.disk with temps := e.manifest.nextSstId :: e.temps } := by
  have hshows := h.shows hst hlists hl
  refine ⟨⟨hshows.rest.manifest, ?_, hshows.rest.paused, hshows.rest.files⟩, hshows.log,
    ⟨hst.loads.disk.1, hst.loads.disk.2⟩, hshows.storable.records, hshows.storable.files,
    hshows.storable.bounds⟩
  show s.engine.manifest.nextSstId :: s.engine.temps = e.manifest.nextSstId :: e.temps
  rw [h.manifest, h.same (·.temps) (fun _ _ => rfl)]

theorem ByteEngine.Renders.removing (h : s.Renders e) (hst : e.Storable) (hlists : e.Lists)
    (hl : WalLog.Intact e.wal) : List.Forall₂ ByteDisk.Shows s.removing e.removing := by
  have hkeys : s.log.dir.keys.length = e.wal.dir.keys.length := by
    rw [h.log, render_dir, OrderedMap.keys_map]
  have hshows := h.shows hst hlists hl.toLive
  rw [ByteEngine.removing, Engine.removing, hkeys, h.manifest, List.forall₂_map_left_iff,
    List.forall₂_map_right_iff, List.forall₂_same]
  intro n _
  obtain ⟨gone, hsplit, -⟩ := hl.records_removeFirst e.manifest.maxSeqno n
  refine ⟨h.matches _ _, ⟨e.wal.removeFirst e.manifest.maxSeqno n, (hl.removeFirst _ n).toLive,
    ?_, rfl⟩, ⟨hst.loads.disk.1, hst.loads.disk.2⟩, fun r hr => hst.records r ?_,
    hshows.storable.files, hshows.storable.bounds⟩
  · rw [← removeFirst_render, ← h.log]
  · rw [hsplit]
    exact List.mem_append_right _ hr

/-- Step by step, a flush over bytes is one over records and rows. -/
theorem ByteEngine.Renders.flushing (h : s.Renders e) (hst : e.Storable) (hh : Holds e M D)
    (hlog : WalLog.Intact e.wal)
    (hfits : ∀ target ∈ e.immutables.getLast?, FileFits e.config target) (now : ℕ) :
    List.Forall₂ ByteDisk.Shows (s.flushing now) (e.flushing now) := by
  rw [ByteEngine.flushing, Engine.flushing, h.immutables]
  rcases ht : e.immutables.getLast? with _ | target
  · exact .nil
  refine .cons (h.shows_temps hst hh.lists hlog.toLive) ?_
  have hmem : Storable target.map :=
    hst.memtables target (List.mem_cons_of_mem _ (List.mem_of_getLast? ht))
  rcases h.writeSstable hst hh hmem (hfits target ht) with
    ⟨x, hbytes, hrows⟩ | ⟨s', e', r, hbytes, hrows, h', hst', hwal, hfinite, hbounds⟩
  · rw [hbytes, hrows]
    exact .nil
  rw [hbytes, hrows]
  obtain ⟨heq, -⟩ := writeSstable_eq hrows now
  have hlists : e'.Lists := heq ▸ hh.lists
  have hlog' : WalLog.Intact e'.wal := hwal ▸ hlog
  refine .cons (h'.shows hst' hlists hlog'.toLive) ?_
  obtain ⟨w', files', heng'⟩ := h'.engine
  have hpublished := hst'.publishFlush (r.toMeta now) hfinite (hbounds now)
  rw [heng', publishFlush_swap]
  rcases publishFlush_cases (r.toMeta now) e' with ⟨-, hflush⟩ | ⟨-, hflush⟩ <;>
    rw [hflush] at hpublished ⊢
  · refine ByteEngine.Renders.removing ⟨⟨w', files', rfl⟩, h'.log, h'.files⟩ hpublished ?_ hlog'
    exact fun t ht => List.mem_append_left _ ht
  · exact .nil

theorem ByteEngine.Renders.deleting (h : s.Renders e) (hst : e.Storable) (hlists : e.Lists)
    (hl : WalLog.Live e.wal) (removed : List TableMeta) :
    List.Forall₂ ByteDisk.Shows (s.deleting removed) (e.deleting removed) := by
  rw [ByteEngine.deleting, Engine.deleting, List.forall₂_map_left_iff, List.forall₂_map_right_iff,
    List.forall₂_same]
  intro n _
  obtain ⟨hrenders, hstorable⟩ := h.deleteInputs hst (removed.take n)
  obtain ⟨files, heq⟩ := deleteInputs_eq (removed.take n) e
  rw [heq] at hrenders hstorable ⊢
  exact hrenders.shows hstorable hlists hl

theorem lists_publishCompaction {ids : List ℕ} {added : Option TableMeta}
    {removed : List TableMeta} (h : e.publishCompaction ids added = (e', .ok removed)) :
    e'.Lists ∧ e'.wal = e.wal := by
  rcases publishCompaction_cases ids added e with ⟨-, readers, -, hedit⟩ | hedit
  all_goals
    have hrows : e.publishCompaction ids added = _ := hedit e.wal e.files
    obtain ⟨heq, hres⟩ := Prod.mk.inj (hrows.symm.trans h)
  · obtain rfl := heq
    exact ⟨fun t ht => List.mem_append_left _ ht, rfl⟩
  · cases hres

/-- Step by step, a compaction over bytes is one over records and rows. -/
theorem ByteEngine.Renders.compacting (h : s.Renders e) (hst : e.Storable) (hh : Holds e M D)
    (hl : WalLog.Live e.wal) (choice : Option (List ℕ)) (now created : ℕ)
    (hfits : ∀ ids ∈ (e.chooseInputs choice).toOption.join,
      ∀ final ∈ (s.mergeInputs ids now).toOption, final.entries ≠ 0 → FileFits e.config final) :
    List.Forall₂ ByteDisk.Shows (s.compacting choice now created)
      (e.compacting choice now created) := by
  rw [ByteEngine.compacting, Engine.compacting, h.ensureOpen, h.chooseInputs]
  rcases e.ensureOpen with x | u
  · exact .nil
  dsimp only
  rcases hids : e.chooseInputs choice with x | _ | ids
  · exact .nil
  · exact .nil
  dsimp only
  obtain ⟨front, inputs, back, hsel⟩ := hh.selects hids
  obtain ⟨final, merged, n, hmerge, -⟩ := hh.mergeInputs hsel now
  obtain ⟨hbytes, hfinal⟩ := h.mergeInputs hst hmerge
  have hfile := hfits ids (by rw [hids]; rfl) final (by rw [hbytes]; rfl)
  rw [hbytes, scanInputs_nil hst.loads.2, hmerge]
  refine .cons (h.shows_temps hst hh.lists hl) ?_
  rcases h.writeOutput hst hh hfinal hfile created with
    ⟨x, hw, hw'⟩ | ⟨s', e', added, hw, hw', h', hst', hadded⟩
  · rw [hw, hw']
    exact .nil
  rw [hw, hw']
  obtain ⟨⟨files', misindexed', heq⟩, -⟩ := writeOutput_ok hw'
  have hlists : e'.Lists := heq ▸ hh.lists
  have hl' : WalLog.Live e'.wal := heq ▸ hl
  refine .cons (h'.shows hst' hlists hl') ?_
  obtain ⟨hrenders, hresult, hstorable⟩ := h'.publishCompaction hst' ids hadded
  rcases hp : s'.engine.publishCompaction ids added with ⟨t, res⟩
  rcases hp' : e'.publishCompaction ids added with ⟨e'', res'⟩
  rw [hp, hp'] at hrenders hresult
  rw [hp'] at hstorable
  obtain rfl : res = res' := hresult
  rcases res with x | removed
  · exact .nil
  · obtain ⟨hlisted, hwal⟩ := lists_publishCompaction hp'
    exact hrenders.deleting hstorable hlisted (hwal ▸ hl') removed

/-! ## Stores over bytes that endure a crash -/

/-- The store over records and rows that the bytes stand for endures crashes. -/
structure ByteEngine.Endures (rs : List Record) (s : ByteEngine) (e : Engine)
    (M D : List LiveTable) : Prop where
  renders : s.Renders e
  storable : e.Storable
  endures : LsmKv.Endures rs e M D

theorem ByteEngine.Endures.call (h : s.Endures rs e M D) {c : Call} (hc : s.Orderly c) :
    ∃ M' D', (s.perform c).Endures (rs ++ (s.accepted c).toList) (e.perform c) M' D' := by
  obtain ⟨S, ps, q, htells⟩ := h.endures.tells
  have horderly := h.renders.orderly h.storable hc.1
  obtain ⟨hrenders, hstorable, haccepted⟩ :=
    h.renders.perform h.storable htells.holds htells.log horderly hc.2
  obtain ⟨-, M', D', hendures⟩ := h.endures.call horderly
  exact ⟨M', D', hrenders, hstorable, haccepted ▸ hendures⟩

/-- A rotation touches nothing on disk but the log. -/
theorem disk_maybeRotate (cut : Wal.Cut) (t : ByteStore) :
    (t.maybeRotate cut).1.engine.stored = t.engine.stored ∧
      (t.maybeRotate cut).1.engine.temps = t.engine.temps ∧
      (t.maybeRotate cut).1.engine.paused = t.engine.paused := by
  rw [ByteStore.maybeRotate]
  split
  · exact ⟨rfl, rfl, rfl⟩
  split
  · exact ⟨rfl, rfl, rfl⟩
  · rcases t.log.roll cut with ⟨log, x | id⟩ <;> exact ⟨rfl, rfl, rfl⟩

theorem disk_write (s : ByteEngine) (append_cut roll_cut : Wal.Cut) (del : Bool)
    (key value : Bytes) : (s.write append_cut roll_cut del key value).1.disk =
      { s.disk with wal := (s.write append_cut roll_cut del key value).1.log.dir } := by
  have hsame : (s.toByteStore.write append_cut roll_cut del key value).1.engine.stored =
        s.engine.stored ∧
      (s.toByteStore.write append_cut roll_cut del key value).1.engine.temps = s.engine.temps ∧
      (s.toByteStore.write append_cut roll_cut del key value).1.engine.paused =
        s.engine.paused := by
    rw [ByteStore.write]
    rcases s.engine.ensureOpen with x | u
    · exact ⟨rfl, rfl, rfl⟩
    dsimp only
    split
    · exact ⟨rfl, rfl, rfl⟩
    rcases s.engine.ensureWriteCapacity with x | u
    · exact ⟨rfl, rfl, rfl⟩
    dsimp only
    rcases s.log.append append_cut del key value with ⟨log, x | n⟩
    · exact ⟨rfl, rfl, rfl⟩
    dsimp only
    have hrotate := disk_maybeRotate roll_cut ⟨s.engine.apply ⟨del, key, value, n⟩, log⟩
    rcases hres : ByteStore.maybeRotate roll_cut ⟨s.engine.apply ⟨del, key, value, n⟩, log⟩ with
      ⟨t, x | u⟩ <;> rw [hres] at hrotate <;> exact hrotate
  obtain ⟨hstored, htemps, hpaused⟩ := hsame
  simp only [ByteEngine.disk, ByteEngine.write, hstored, htemps, hpaused]

/-- What a crash inside a write leaves. -/
theorem ByteEngine.Endures.write_crash (h : s.Endures rs e M D) {del : Bool} {key value : Bytes}
    (hroom : s.log.lastSeqno + 1 < 2 ^ 64)
    (hfit : kMinPayload + key.length + value.length ≤ kMaxPayload)
    (hvalue : del = true → value = []) {append_cut roll_cut : Wal.Cut} {added : List Record}
    (hadded : added = ((e.write del key value).2.toOption.map
      (fun n => (⟨del, key, value, n⟩ : Record))).toList) {d : ByteDisk}
    (hleft : (s.write append_cut roll_cut del key value).1.disk.Left d) :
    d.lost (Wal.replayed s.log.dir ++ added) < added.length + max 1 s.engine.config.walFsyncEveryN ∧
      ∃ d' D', d.Stands d' ∧ d'.Storable ∧
        d'.Tells (lastWritten ((rs ++ added).rdrop
          (d.lost (Wal.replayed s.log.dir ++ added)))) D' := by
  obtain ⟨S, ps, q, htells⟩ := h.endures.tells
  have hnext : e.wal.lastSeqno + 1 < 2 ^ 64 := by
    rwa [h.renders.log] at hroom
  obtain ⟨w, hreads, hout⟩ :=
    h.renders.write_outcome h.storable htells.log hnext hfit hvalue hleft.log
  rw [← hadded] at hout
  have hnew : ∀ r ∈ added, StorableRecord r := by
    intro r hr
    rcases write_eq del key value e with ⟨x, -, heq⟩ | ⟨hcheck, heq⟩
    · rw [hadded, heq] at hr
      cases hr
    · rw [hadded, heq] at hr
      obtain rfl := List.mem_singleton.mp hr
      exact ⟨⟨hfit, hnext, hvalue⟩, (checkWrite_ok hcheck).2.1⟩
  have hrecords : ∀ r ∈ WalLog.records w, StorableRecord r := by
    intro r hr
    rcases List.mem_append.mp (hout.within.subset hr) with hr | hr
    · exact h.storable.records r hr
    · exact hnew r hr
  have hlost : d.lost (Wal.replayed s.log.dir ++ added) =
      (WalLog.records e.wal.dir ++ added).length - (WalLog.records w).length := by
    rw [ByteDisk.lost, h.renders.replayed h.storable, hreads.replayed]
  obtain ⟨hfew, D', htells'⟩ := h.endures.write_outcome hfit hadded hout
  rw [hlost, h.renders.config]
  refine ⟨hfew, { e.disk with wal := w }, D', ⟨?_, hreads⟩,
    h.storable.disk_left htells.holds hrecords, htells'⟩
  rw [hleft.rest, disk_write]
  exact h.renders.matches _ _

/-- What a crash leaves of a directory on the way through a call that writes no record. -/
theorem ByteDisk.Shows.endures {b b' : ByteDisk} {d : Disk} {n : ℕ} (h : b.Shows d)
    (hd : d.Endures rs n) (hleft : b.Left b') :
    b'.lost (Wal.replayed b.wal) < ([] : List Record).length + n ∧
      ∃ d' D', b'.Stands d' ∧ d'.Storable ∧
        d'.Tells (lastWritten ((rs ++ []).rdrop (b'.lost (Wal.replayed b.wal)))) D' := by
  obtain ⟨d', hstands, hstorable, hleft', hlost⟩ := h.crash hleft
  obtain ⟨hfew, D', htells⟩ := hd d' hleft'
  rw [hlost, List.append_nil, List.length_nil, Nat.zero_add]
  exact ⟨hfew, d', D', hstands, hstorable, htells⟩

/-- A crash at any point of a run. -/
theorem ByteEngine.Endures.crash (h : s.Endures rs e M D) {logged added : List Record}
    {b b' : ByteDisk} (hp : s.Point ByteEngine.Orderly b logged added) (hleft : b.Left b') :
    b'.lost logged < added.length + max 1 s.engine.config.walFsyncEveryN ∧
      ∃ d' D', b'.Stands d' ∧ d'.Storable ∧
        d'.Tells (lastWritten ((rs ++ added).rdrop (b'.lost logged))) D' := by
  obtain ⟨S, ps, q, htells⟩ := h.endures.tells
  cases hp with
  | between =>
    rw [h.renders.config]
    exact (h.renders.shows h.storable htells.holds.lists htells.log.toLive).endures
      (h.endures.disk rfl htells.holds.disk) hleft
  | within hc hw =>
    have horderly := h.renders.orderly h.storable hc.1
    have haccepted := (h.renders.perform h.storable htells.holds htells.log horderly hc.2).2.2
    cases hw with
    | put append_cut roll_cut =>
      exact h.write_crash hc.2.1 hc.1 (by intro hdel; cases hdel)
        (congrArg Option.toList haccepted) hleft
    | @remove append_cut roll_cut key =>
      have hfit : kMinPayload + key.length + ([] : Bytes).length ≤ kMaxPayload := hc.1
      exact h.write_crash hc.2.1 hfit (fun _ => rfl) (congrArg Option.toList haccepted) hleft
    | @flush now _ hmem =>
      have hfits : ∀ target ∈ e.immutables.getLast?, FileFits e.config target :=
        fun target ht => h.renders.config ▸ hc.2.2 target (h.renders.immutables ▸ ht)
      obtain ⟨d, hin, hshows⟩ := forall₂_exists_right
        (h.renders.flushing h.storable htells.holds htells.log hfits now) hmem
      rw [h.renders.config]
      exact hshows.endures (h.endures.flushing hin) hleft
    | @compact choice now created _ hmem =>
      obtain ⟨d, hin, hshows⟩ := forall₂_exists_right
        (h.renders.compacting h.storable htells.holds htells.log.toLive choice now created
          (fun ids hids final hfinal hne => h.renders.config ▸
            hc.2.2 ids (h.renders.chooseInputs choice ▸ hids) final hfinal hne))
        hmem
      rw [h.renders.config]
      exact hshows.endures (h.endures.compacting horderly hin) hleft

end

end LsmKv
