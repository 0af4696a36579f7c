import LsmKv.WalFaults
import LsmKv.WalInvariant

/-!
# What a crash leaves of a log

An operation cut short has written the newest segment up to some byte; everything below is
on stable storage. After the crash the directory reads as the records that were synced and
some of those that were not, in order.
-/

namespace LsmKv
open WalFormat WalLog

/-- Every file of a directory survives in part. -/
def Crash {α : Type} (d d' : OrderedMap ℕ (DurableFile α)) : Prop :=
  List.Forall₂ (fun p q => p.1 = q.1 ∧ p.2.Survives q.2) d.entries d'.entries

/-- The segments below the newest are as they should be, the newest is written in part. -/
def Torn (d : OrderedMap ℕ (DurableFile UInt8)) (e : OrderedMap ℕ (DurableFile Record)) : Prop :=
  ∃ pre id f g, e.entries = pre ++ [(id, f)] ∧
    d.entries = pre.map (fun p => (p.1, renderFile p.2)) ++ [(id, g)] ∧
    (∀ p ∈ pre, p.2 = .durable p.2.data) ∧ g.data <+: segmentData f.data ∧
    (f.synced = 0 ∨ segmentBytes (f.data.take f.synced) ≤ g.synced)

/-- The records a crash may leave: the durable ones and some more, in order. -/
structure Left (e e' : OrderedMap ℕ (DurableFile Record)) : Prop where
  stable : Sealed e'
  durable : durableRecords e <+: records e'
  kept : records e' <+: records e

theorem torn_render {l : Wal Record} (h : Live l) : Torn (render l).dir l.dir := by
  obtain ⟨pre, f, he, hp⟩ := h
  refine ⟨pre, l.activeId, f, renderFile f, he, ends_render he, hp, List.prefix_rfl, .inr ?_⟩
  exact (length_segmentData _).ge

/-- Files that are all on stable storage survive as they are. -/
theorem crash_durable {α : Type} {l l' : List (ℕ × DurableFile α)}
    (hl : ∀ p ∈ l, ∃ b, p.2 = .durable b)
    (h : List.Forall₂ (fun p q => p.1 = q.1 ∧ DurableFile.Survives p.2 q.2) l l') : l' = l := by
  induction h with
  | nil => rfl
  | @cons p q l l' hpq _ ih =>
    obtain ⟨b, hb⟩ := hl p List.mem_cons_self
    have hq : q.2 = .durable b := DurableFile.durable_survives (hb ▸ hpq.2)
    rw [ih (fun p hp => hl p (List.mem_cons_of_mem _ hp))]
    congr 1
    exact Prod.ext hpq.1.symm (hq.trans hb.symm)

theorem renderFile_of_durable {f : DurableFile Record} (h : f = .durable f.data) :
    renderFile f = .durable (segmentData f.data) := by
  rw [h]
  exact renderFile_durable _

theorem records_snoc {e : OrderedMap ℕ (DurableFile Record)} {pre id f}
    (he : e.entries = pre ++ [(id, f)]) :
    records e = pre.flatMap (fun p => p.2.data) ++ f.data := by
  rw [records, he, List.flatMap_append]
  simp

theorem durableRecords_snoc {e : OrderedMap ℕ (DurableFile Record)} {pre id f}
    (he : e.entries = pre ++ [(id, f)]) (hp : ∀ p ∈ pre, p.2 = .durable p.2.data) :
    durableRecords e = pre.flatMap (fun p => p.2.data) ++ f.data.take f.synced := by
  have hpre : pre.flatMap (fun p => p.2.data.take p.2.synced) =
      pre.flatMap (fun p => p.2.data) := by
    refine List.flatMap_congr (fun p hmem => ?_)
    rw [hp p hmem]
    exact List.take_length
  rw [durableRecords, he, List.flatMap_append, hpre]
  simp

/-- How much of the newest segment can still be read. -/
theorem torn_newest {f : DurableFile Record} {g : DurableFile UInt8}
    (hr : ∀ r ∈ f.data, Readable r) (hpre : g.data <+: segmentData f.data)
    (hsync : f.synced = 0 ∨ segmentBytes (f.data.take f.synced) ≤ g.synced) {n : ℕ}
    (hn : g.synced ≤ n) :
    ∃ k, f.synced ≤ k ∧
      FileReads (.durable (g.data.take n)) (.durable (f.data.take k)) := by
  have hb : g.data.take n <+: segmentData f.data := (List.take_prefix _ _).trans hpre
  rcases hsync with hzero | hsync
  · rcases reads_of_prefix hr hb with hs | ⟨k, hk⟩
    · exact ⟨0, hzero.le, .short rfl (by rw [List.take_zero]) hs⟩
    · exact ⟨k, by omega, .whole rfl rfl hk⟩
  · have hlen : segmentBytes (f.data.take f.synced) ≤ (g.data.take n).length := by
      have := g.synced_le
      rw [List.length_take]
      omega
    obtain ⟨k, hk, hreads⟩ := reads_of_prefix_synced hr hb hlen
    exact ⟨k, hk, .whole rfl rfl hreads⟩

theorem Torn.crash {d d' : OrderedMap ℕ (DurableFile UInt8)}
    {e : OrderedMap ℕ (DurableFile Record)} (h : Torn d e)
    (hr : ∀ r ∈ records e, Readable r) (hc : Crash d d') :
    ∃ e', DirReads d' e' ∧ Left e e' := by
  obtain ⟨pre, id, f, g, he, hd, hp, hpre, hsync⟩ := h
  rw [records_snoc he] at hr
  rw [Crash, hd] at hc
  obtain ⟨pre', ⟨id', g'⟩, hd', hcpre, hid, n, hn, hg'⟩ := forall₂_snoc hc
  obtain rfl : id = id' := hid
  obtain rfl : g' = .durable (g.data.take n) := hg'
  obtain rfl := crash_durable (fun p hmem => by
    obtain ⟨q, hq, rfl⟩ := List.mem_map.mp hmem
    exact ⟨_, renderFile_of_durable (hp q hq)⟩) hcpre
  obtain ⟨k, hk, hreads⟩ := torn_newest (fun r hmem => hr r (List.mem_append_right _ hmem))
    hpre hsync hn
  have he' : (e.insert id (.durable (f.data.take k))).entries =
      pre ++ [(id, .durable (f.data.take k))] := OrderedMap.entries_insert_last _ he
  have hwhole : ∀ p ∈ pre, Reads (segmentData p.2.data) p.2.data := fun p hmem =>
    reads_segmentData (fun r hrp =>
      hr r (List.mem_append_left _ (List.mem_flatMap.mpr ⟨p, hmem, hrp⟩)))
  refine ⟨e.insert id (.durable (f.data.take k)), ⟨?_, ?_⟩, ?_, ?_, ?_⟩
  · rw [hd', he']
    refine forall₂_append ?_ (.cons ⟨rfl, hreads⟩ .nil)
    rw [List.forall₂_map_left_iff, List.forall₂_same]
    exact fun p hmem =>
      ⟨rfl, .whole (renderFile_of_durable (hp p hmem)) (hp p hmem) (hwhole p hmem)⟩
  · intro p hmem
    rw [hd', List.dropLast_concat] at hmem
    obtain ⟨q, hq, rfl⟩ := List.mem_map.mp hmem
    exact (hwhole q hq).not_short
  · intro p hmem
    rw [he'] at hmem
    rcases List.mem_append.mp hmem with hmem | hmem
    · exact hp p hmem
    · obtain rfl := List.mem_singleton.mp hmem
      rfl
  · rw [durableRecords_snoc he hp, records_snoc he']
    exact (List.prefix_append_right_inj _).mpr ((List.take_prefix_take_left hk))
  · rw [records_snoc he, records_snoc he']
    exact (List.prefix_append_right_inj _).mpr (List.take_prefix _ _)

/-- A directory recovery has yet to open survives a crash as it is. -/
theorem DirReads.crash {d d' : OrderedMap ℕ (DurableFile UInt8)}
    {e : OrderedMap ℕ (DurableFile Record)} (h : DirReads d e) (hc : Crash d d') : d' = d := by
  refine OrderedMap.ext_entries (crash_durable (fun p hp => ?_) hc)
  obtain ⟨q, -, -, hpq⟩ := forall₂_exists_right h.files hp
  rcases hpq with ⟨hg, -, -⟩ | ⟨hg, -, -⟩
  · exact ⟨_, hg⟩
  · exact ⟨_, hg⟩

/-! ## Inside an operation -/

/-- A point inside an operation on `l` that appends at most `rs`: what is on disk then, and
the records `e` it stands for. -/
structure Stage (d : OrderedMap ℕ (DurableFile UInt8)) (l : Wal Record) (rs : List Record)
    (e : OrderedMap ℕ (DurableFile Record)) : Prop where
  torn : Torn d e
  durable : durableRecords l.dir <+: durableRecords e
  covers : records l.dir <+: records e
  within : records e <+: records l.dir ++ rs

theorem durableRecords_le {l : Wal Record} (h : Live l) :
    durableRecords l.dir <+: records l.dir := by
  obtain ⟨pre, f, he, hp⟩ := h
  rw [durableRecords_snoc he hp, records_snoc he]
  exact (List.prefix_append_right_inj _).mpr (List.take_prefix _ _)

theorem stage_of_render {l l' : Wal Record} (h : Live l') {rs : List Record}
    (hd : durableRecords l.dir <+: durableRecords l'.dir)
    (hc : records l.dir <+: records l'.dir) (hw : records l'.dir <+: records l.dir ++ rs) :
    Stage (render l').dir l rs l'.dir := ⟨torn_render h, hd, hc, hw⟩

theorem stage_self {l : Wal Record} (h : Live l) (rs : List Record) :
    Stage (render l).dir l rs l.dir :=
  stage_of_render h List.prefix_rfl List.prefix_rfl (List.prefix_append _ _)

theorem Stage.trans {d : OrderedMap ℕ (DurableFile UInt8)} {l l' : Wal Record}
    {rs : List Record} {e : OrderedMap ℕ (DurableFile Record)} (h : Stage d l' rs e)
    (hd : durableRecords l.dir <+: durableRecords l'.dir) (hr : records l'.dir = records l.dir) :
    Stage d l rs e :=
  ⟨h.torn, hd.trans h.durable, hr ▸ h.covers, hr ▸ h.within⟩

theorem durableRecords_rollSegment {l : Wal Record} (h : Live l) :
    durableRecords (WalLog.rollSegment l).dir = records l.dir := by
  obtain ⟨pre, f, he, hp⟩ := h
  have hsealed : ∀ p ∈ pre ++ [(l.activeId, f.sync)], p.2 = .durable p.2.data := by
    intro p hmem
    rcases List.mem_append.mp hmem with hmem | hmem
    · exact hp p hmem
    · obtain rfl := List.mem_singleton.mp hmem
      rfl
  rw [durableRecords_snoc (ends_rollSegment he) hsealed, records_snoc he, List.flatMap_append]
  simp [DurableFile.new]

theorem stage_rolled {l : Wal Record} (h : Live l) :
    Stage (render (WalLog.rollSegment l)).dir l [] (WalLog.rollSegment l).dir := by
  have hrec := records_rollSegment h
  refine stage_of_render h.rollSegment ?_ (hrec ▸ List.prefix_rfl)
    (hrec ▸ List.prefix_append _ _)
  rw [durableRecords_rollSegment h]
  exact durableRecords_le h

/-- The new segment with some of its header written. -/
theorem stage_newSegment {l : Wal Record} (h : Live l) (n : ℕ) :
    Stage ((((render l).onActive (·.sync)).closeFile.openFile (l.activeId + 1)).onActive
      (·.append (header.take n))).dir l [] (WalLog.rollSegment l).dir := by
  obtain ⟨pre, f, he, hp⟩ := id h
  have hclosed : ((render l).onActive (·.sync)).closeFile.Ends
      (pre.map (fun p => (p.1, renderFile p.2))) (renderFile f).sync :=
    (ends_render he).onActive (·.sync)
  have hopened := hclosed.openFile.onActive (·.append (header.take n))
  refine ⟨⟨pre ++ [(l.activeId, f.sync)], l.activeId + 1, .new,
    DurableFile.new.append (header.take n), ends_rollSegment he, ?_, ?_, ?_, .inl rfl⟩,
    (stage_rolled h).durable, (stage_rolled h).covers, (stage_rolled h).within⟩
  · rw [List.map_append, List.map_singleton, renderFile_sync]
    exact hopened
  · intro p hmem
    rcases List.mem_append.mp hmem with hmem | hmem
    · exact hp p hmem
    · obtain rfl := List.mem_singleton.mp hmem
      rfl
  · exact (List.take_prefix n header).trans (List.prefix_append _ _)

/-- A flush that fails, whatever it loses. -/
theorem stage_lose {l : Wal Record} (h : Live l) (lost : ℕ) :
    Stage ((render l).onActive (·.lose lost)).dir l [] l.dir := by
  obtain ⟨pre, f, he, hp⟩ := id h
  refine ⟨⟨pre, l.activeId, f, (renderFile f).lose lost, he,
    (ends_render he).onActive (·.lose lost), hp, (renderFile f).data_lose lost, .inr ?_⟩,
    (stage_self h []).durable, (stage_self h []).covers, (stage_self h []).within⟩
  exact (length_segmentData _).ge

theorem stage_synced {l : Wal Record} (h : Live l) :
    Stage ((render l).onActive (·.sync)).dir l [] (l.onActive (·.sync)).dir := by
  obtain ⟨pre, f, he, hp⟩ := h
  have hsync : (render l).onActive (·.sync) = render (l.onActive (·.sync)) :=
    onActive_render (by rw [(ends_render he).activeFile, he.activeFile, renderFile_sync])
  have hr : records (l.onActive (·.sync)).dir = records l.dir := by
    rw [records_of_ends (he.onActive (·.sync)), records_of_ends he]
    rfl
  rw [hsync]
  refine stage_of_render ⟨pre, f.sync, he.onActive (·.sync), hp⟩ ?_ (hr ▸ List.prefix_rfl)
    (hr ▸ List.prefix_append _ _)
  rw [durableRecords_snoc he hp, durableRecords_snoc (he.onActive (·.sync)) hp]
  exact (List.prefix_append_right_inj _).mpr (List.take_prefix_take_left f.synced_le)

/-- A roll that its cut does not stop is a complete one. -/
theorem rollSegment_of_not_inRoll {l : Wal Record} (h : Live l) {cut : Wal.Cut}
    (hcut : cut.inRoll = false) :
    (render l).rollSegment cut = (render (WalLog.rollSegment l), .ok ()) := by
  obtain ⟨pre, f, he, -⟩ := h
  rw [← rollSegment_render he]
  cases cut <;> first | rfl | cases hcut

/-- A roll, complete or cut short. -/
theorem stage_rollSegment {l : Wal Record} (h : Live l) (cut : Wal.Cut) :
    ∃ e, Stage ((render l).rollSegment cut).1.dir l [] e := by
  cases cut with
  | rollFlush lost => exact ⟨_, stage_lose h lost⟩
  | rollSync => exact ⟨_, stage_self h []⟩
  | rollOpen => exact ⟨_, stage_synced h⟩
  | header n => exact ⟨_, stage_newSegment h n⟩
  | headerFlush n => exact ⟨_, stage_newSegment h n⟩
  | headerSync => exact ⟨_, stage_newSegment h kHeaderSize⟩
  | never | record _ | recordSpill _ | recordFlush _ | recordSync =>
    rw [rollSegment_of_not_inRoll h rfl]
    exact ⟨_, stage_rolled h⟩

theorem durableRecords_writeRecord {l : Wal Record} (h : Live l) (r : Record) :
    durableRecords (WalLog.writeRecord r l).dir = durableRecords l.dir := by
  obtain ⟨pre, f, he, hp⟩ := h
  rw [durableRecords_snoc (ends_writeRecord he r) hp, durableRecords_snoc he hp]
  show _ ++ (f.data ++ [r]).take f.synced = _
  rw [List.take_append_of_le_length f.synced_le]

theorem durableRecords_appendRecord {l : Wal Record} (h : Live l) (r : Record) :
    durableRecords l.dir <+: durableRecords (WalLog.appendRecord r l).dir := by
  obtain ⟨pre, f, he, hp⟩ := h
  rw [durableRecords_snoc he hp, durableRecords_snoc (ends_appendRecord he r) hp]
  refine (List.prefix_append_right_inj _).mpr ?_
  rw [appended]
  split
  · show f.data.take f.synced <+: (f.data ++ [r]).take (f.data ++ [r]).length
    rw [List.take_length]
    exact (List.take_prefix _ _).trans (List.prefix_append _ _)
  · have htake : (f.data ++ [r]).take f.synced = f.data.take f.synced :=
      List.take_append_of_le_length f.synced_le
    exact htake ▸ List.prefix_rfl

theorem records_writeRecord {l : Wal Record} (h : Live l) (r : Record) :
    records (WalLog.writeRecord r l).dir = records l.dir ++ [r] := by
  obtain ⟨pre, f, he, -⟩ := h
  rw [records_of_ends (ends_writeRecord he r), records_of_ends he, List.append_assoc]
  rfl

/-- A record some of which has been written. -/
theorem stage_record {l : Wal Record} (h : Live l) (r : Record)
    {k : DurableFile UInt8 → DurableFile UInt8} (hk : ∀ f, (k f).data <+: f.data ++ frame r)
    (hs : ∀ f, (k f).synced = f.synced) :
    Stage ((render l).onActive k).dir l [r] (WalLog.writeRecord r l).dir := by
  obtain ⟨pre, f, he, hp⟩ := id h
  have hrec := records_writeRecord h r
  refine ⟨⟨pre, l.activeId, f.append [r], k (renderFile f), ends_writeRecord he r,
    (ends_render he).onActive k, hp, ?_, .inr ?_⟩, ?_, ?_, ?_⟩
  · show _ <+: segmentData (f.data ++ [r])
    rw [segmentData_snoc]
    exact hk (renderFile f)
  · show segmentBytes ((f.data ++ [r]).take f.synced) ≤ _
    rw [List.take_append_of_le_length f.synced_le, hs]
    exact (length_segmentData _).ge
  · exact durableRecords_writeRecord h r ▸ List.prefix_rfl
  · exact hrec ▸ List.prefix_append _ _
  · exact hrec ▸ List.prefix_rfl

/-- The write of a record, complete or cut short. -/
theorem stage_appendRecord {l : Wal Record} (h : Live l) (cut : Wal.Cut) (r : Record) :
    ∃ e, Stage ((render l).appendRecord cut r).1.dir l [r] e := by
  obtain ⟨pre, f, he, -⟩ := id h
  have hdone : Stage ((render l).appendRecord .never r).1.dir l [r]
      (WalLog.appendRecord r l).dir := by
    rw [appendRecord_render he]
    exact stage_of_render (h.appendRecord r) (durableRecords_appendRecord h r)
      (records_appendRecord h r ▸ List.prefix_append _ _)
      (records_appendRecord h r ▸ List.prefix_rfl)
  cases cut with
  | never | rollFlush _ | rollSync | rollOpen | header _ | headerFlush _ | headerSync =>
    exact ⟨_, hdone⟩
  | record n =>
    exact ⟨_, stage_record h r (fun f => (List.prefix_append_right_inj f.data).mpr
      (List.take_prefix n (frame r))) (fun _ => rfl)⟩
  | recordSpill lost =>
    exact ⟨_, stage_record h r (fun f => (f.append (frame r)).data_lose lost) (fun _ => rfl)⟩
  | recordFlush lost =>
    rw [Wal.appendRecord_recordFlush]
    split
    · have hdir : (((render l).writeRecord r).onActive (·.lose lost)).dir =
          ((render l).onActive (fun f => (f.append (frame r)).lose lost)).dir := by
        rw [← Wal.onActive_onActive (·.append (frame r)) (·.lose lost) (render l)]
        rfl
      rw [hdir]
      exact ⟨_, stage_record h r (fun f => (f.append (frame r)).data_lose lost) (fun _ => rfl)⟩
    · exact ⟨_, hdone⟩
  | recordSync =>
    rw [Wal.appendRecord_recordSync]
    split
    · exact ⟨_, stage_record h r (k := (·.append (frame r))) (fun _ => List.prefix_rfl)
        (fun _ => rfl)⟩
    · exact ⟨_, hdone⟩

/-- An append, complete or cut short. -/
theorem stage_request {l : Wal Record} (h : Live l) (cut : Wal.Cut) (q : Wal.Request) :
    ∃ e, Stage ((render l).request cut q).1.dir l
      [q.record ((l.lastSeqno + 1) % 2 ^ 64)] e := by
  set r : Record := q.record ((l.lastSeqno + 1) % 2 ^ 64) with hr
  rw [Wal.request_eq, Wal.append, render_isOpen]
  rcases Wal.checkAppend l.isOpen q.key q.value with e | u
  · exact ⟨_, stage_self h _⟩
  have hn : (render l).nextRecord q.isDel q.key q.value = r := rfl
  simp only [hn, render_mustRoll]
  split
  · rcases hcut : cut.inRoll with _ | _
    · rw [rollSegment_of_not_inRoll h hcut]
      obtain ⟨e, he⟩ := stage_appendRecord h.rollSegment cut r
      exact ⟨e, he.trans (stage_rolled h).durable (records_rollSegment h)⟩
    · obtain ⟨e, he⟩ := stage_rollSegment h cut
      refine ⟨e, ?_, he.durable, he.covers, ?_⟩
      · have htorn := he.torn
        rcases hres : (render l).rollSegment cut with ⟨w, err | u⟩
        · rwa [hres] at htorn
        · rw [Wal.inRoll_of_ok hres] at hcut
          cases hcut
      · exact he.within.trans (by rw [List.append_nil]; exact List.prefix_append _ _)
  · exact stage_appendRecord h cut r

theorem stage_roll {l : Wal Record} (h : Live l) (cut : Wal.Cut) :
    ∃ e, Stage ((render l).roll cut).1.dir l [] e := by
  rw [Wal.roll]
  split
  · exact ⟨_, stage_self h []⟩
  · obtain ⟨e, he⟩ := stage_rollSegment h cut
    refine ⟨e, ?_⟩
    rcases hres : (render l).rollSegment cut with ⟨w, err | u⟩ <;> rwa [hres] at he

/-- What a crash leaves of an operation on `l` that appends at most `rs`. -/
structure Outcome (l : Wal Record) (rs : List Record)
    (e : OrderedMap ℕ (DurableFile Record)) : Prop where
  stable : Sealed e
  durable : durableRecords l.dir <+: records e
  within : records e <+: records l.dir ++ rs

theorem Stage.crash {d d' : OrderedMap ℕ (DurableFile UInt8)} {l : Wal Record}
    {rs : List Record} {e : OrderedMap ℕ (DurableFile Record)} (h : Stage d l rs e)
    (hr : ∀ r ∈ records l.dir ++ rs, Readable r) (hc : Crash d d') :
    ∃ e', DirReads d' e' ∧ Outcome l rs e' := by
  obtain ⟨e', hd', hleft⟩ := h.torn.crash (fun r hmem => hr r (h.within.subset hmem)) hc
  exact ⟨e', hd', hleft.stable, h.durable.trans hleft.durable, hleft.kept.trans h.within⟩

/-! ## Inside an open -/

theorem FileReads.repair {g : DurableFile UInt8} {f : DurableFile Record} (h : FileReads g f) :
    FileReads (Wal.repair g) f := by
  rcases h with ⟨rfl, rfl, h⟩ | ⟨rfl, rfl, h⟩
  · exact .whole h.repair rfl (reads_segmentData h.1)
  · exact .short h.repair rfl (Nat.zero_lt_succ _)

/-- Recovery may have repaired any of the segments. -/
theorem DirReads.repairFirst {d : OrderedMap ℕ (DurableFile UInt8)}
    {e : OrderedMap ℕ (DurableFile Record)} (h : DirReads d e) (n : ℕ) :
    DirReads (Wal.repairFirst n d) e := by
  constructor
  · show List.Forall₂ EntryReads (d.entries.map _) _
    rw [List.forall₂_map_left_iff]
    refine h.files.imp (fun p q hpq => ⟨hpq.1, ?_⟩)
    dsimp only
    split
    · exact hpq.2.repair
    · exact hpq.2
  · intro p hp
    obtain ⟨q, hq, rfl⟩ := List.mem_map.mp ((List.map_dropLast ▸ hp) :
      p ∈ d.entries.dropLast.map _)
    have hshort := h.headers q hq
    obtain ⟨x, -, hx⟩ := forall₂_exists_right h.files ((List.dropLast_sublist _).subset hq)
    dsimp only
    split
    · rw [hx.2.repair_left hshort]
      simp [Short, renderFile, segmentBytes]
    · exact hshort

theorem repairFirst_all (d : OrderedMap ℕ (DurableFile UInt8)) :
    Wal.repairFirst d.keys.length d = d.map Wal.repair := by
  refine OrderedMap.ext_entries (List.map_congr_left (fun p hp => ?_))
  have hkey : p.1 ∈ d.keys := List.mem_map_of_mem hp
  simp only [List.take_length, hkey, if_true]

/-- Whatever a crash leaves of an unopened directory is the directory. -/
theorem DirReads.outcome {d d' : OrderedMap ℕ (DurableFile UInt8)} {l : Wal Record}
    (h : DirReads d l.dir) (hs : Sealed l.dir) (hc : Crash d d') :
    ∃ e', DirReads d' e' ∧ Outcome l [] e' := by
  rw [h.crash hc]
  exact ⟨l.dir, h, hs, durableRecords_of_sealed hs ▸ List.prefix_rfl, List.prefix_append _ _⟩

/-- A lost or missing header, written again in part. -/
theorem torn_reheader {w : Wal UInt8} {e : OrderedMap ℕ (DurableFile Record)} {id}
    (epre : List (ℕ × DurableFile Record)) (he : e.entries = epre ++ [(id, .new)]) (hs : Sealed e)
    (hw : (w.openFile id).dir.entries =
      epre.map (fun p => (p.1, renderFile p.2)) ++ [(id, .new)]) (n : ℕ) :
    Torn ((w.openFile id).onActive (·.append (header.take n))).dir e := by
  have hends : (w.openFile id).Ends (epre.map (fun p => (p.1, renderFile p.2))) .new := hw
  refine ⟨epre, id, .new, DurableFile.new.append (header.take n), he,
    hends.onActive (·.append (header.take n)), fun p hp => hs p ?_, ?_, .inl rfl⟩
  · rw [he]
    exact List.mem_append_left _ hp
  · exact (List.take_prefix n header).trans (List.prefix_append _ _)

theorem Stage.outcome {d d' : OrderedMap ℕ (DurableFile UInt8)} {l : Wal Record}
    {e : OrderedMap ℕ (DurableFile Record)} (hs : Sealed l.dir) (ht : Torn d e)
    (hrec : records e = records l.dir) (hse : Sealed e)
    (hr : ∀ r ∈ records l.dir, Readable r) (hc : Crash d d') :
    ∃ e', DirReads d' e' ∧ Outcome l [] e' := by
  refine Stage.crash (e := e) ⟨ht, ?_, ?_, ?_⟩ (by simpa using hr) hc
  · have hsame : durableRecords l.dir = durableRecords e := by
      rw [durableRecords_of_sealed hs, durableRecords_of_sealed hse, hrec]
    exact hsame ▸ List.prefix_rfl
  · exact hrec ▸ List.prefix_rfl
  · exact hrec ▸ List.prefix_append _ _

/-- The disk inside `open` is the disk inside its `open_active_segment`. -/
theorem open_dir (cut : Wal.Cut) (b : Wal UInt8) :
    (b.scanned.dir.entries = [] ∧
      (b.open cut).1.dir = (b.scanned.openActiveSegment cut 1 true).1.dir) ∨
    ∃ pre id f, b.scanned.dir.entries = pre ++ [(id, f)] ∧
      (b.open cut).1.dir =
        (b.scanned.openActiveSegment cut id (f.data.length < kHeaderSize)).1.dir := by
  unfold Wal.open
  dsimp only
  rcases hlast : b.scanned.dir.entries.getLast? with _ | ⟨id, f⟩
  · refine .inl ⟨List.getLast?_eq_none_iff.mp hlast, ?_⟩
    rcases b.scanned.openActiveSegment cut 1 true with ⟨w, e | u⟩ <;> rfl
  · obtain ⟨pre, hsnoc⟩ := List.getLast?_eq_some_iff.mp hlast
    refine .inr ⟨pre, id, f, hsnoc, ?_⟩
    dsimp only
    rcases b.scanned.openActiveSegment cut id (decide (f.data.length < kHeaderSize)) with
      ⟨w, e | u⟩ <;> rfl

theorem FileReads.of_nil {g : DurableFile UInt8} {f : DurableFile Record} (h : FileReads g f)
    (hnil : g.data = []) : g = .new ∧ f = .new := by
  rcases h with ⟨rfl, rfl, h⟩ | ⟨rfl, rfl, h⟩
  · obtain rfl : _ = [] := hnil
    exact absurd (Nat.zero_lt_succ _) h.not_short
  · exact ⟨congrArg DurableFile.durable hnil, rfl⟩

/-- A header that is being written, in part or whole but not yet synced. -/
def WritesHeader (cut : Wal.Cut) (n : ℕ) : Prop :=
  ∀ (id : ℕ) (fresh : Bool) (w : Wal UInt8), (w.openActiveSegment cut id fresh).1.dir =
    if fresh then ((w.openFile id).onActive (·.append (header.take n))).dir
    else (w.openFile id).dir

theorem writesHeader_header (n : ℕ) : WritesHeader (.header n) n := by
  intro id fresh w
  cases fresh <;> rfl

theorem writesHeader_headerFlush (n : ℕ) : WritesHeader (.headerFlush n) n := by
  intro id fresh w
  cases fresh <;> rfl

theorem writesHeader_headerSync : WritesHeader .headerSync kHeaderSize := by
  intro id fresh w
  cases fresh <;> rfl

theorem open_header_outcome {b : Wal UInt8} {l : Wal Record} (hd : DirReads b.dir l.dir)
    (hs : Sealed l.dir) (hr : ∀ r ∈ records l.dir, Readable r) {cut : Wal.Cut} {n : ℕ}
    (hcut : WritesHeader cut n) {d' : OrderedMap ℕ (DurableFile UInt8)}
    (hc : Crash (b.open cut).1.dir d') : ∃ e', DirReads d' e' ∧ Outcome l [] e' := by
  have hrepaired : DirReads b.scanned.dir l.dir := by
    have h := hd.repairFirst b.dir.keys.length
    rwa [repairFirst_all] at h
  rcases open_dir cut b with ⟨hnil, hdir⟩ | ⟨pre, id, f, hsnoc, hdir⟩
  · have hl : l.dir = ∅ :=
      OrderedMap.ext_entries (List.forall₂_nil_left_iff.mp (hnil ▸ hrepaired.files))
    have hw : (b.scanned.openFile 1).dir.entries = [(1, .new)] := by
      show (b.scanned.dir.insert 1 ((b.scanned.dir.find? 1).getD .new)).entries = _
      rw [OrderedMap.ext_entries hnil (n := ∅)]
      rfl
    have hse : Sealed ((∅ : OrderedMap ℕ (DurableFile Record)).insert 1 .new) := by
      intro p hp
      obtain rfl := List.mem_singleton.mp hp
      rfl
    rw [hdir, hcut, if_pos rfl] at hc
    refine Stage.outcome hs (torn_reheader [] rfl hse hw n) ?_ hse hr hc
    rw [hl]
    rfl
  · obtain ⟨epre, ⟨id', g⟩, hle, hpre, rfl, hg⟩ := forall₂_snoc (hsnoc ▸ hrepaired.files)
    have hopened : (b.scanned.openFile id).dir = b.scanned.dir :=
      Wal.dir_openFile (OrderedMap.find?_last hsnoc)
    by_cases hshort : f.data.length < kHeaderSize
    · obtain ⟨dpre, dlast, hbe, rfl, hlast⟩ := List.map_eq_append_iff.mp
        (show b.dir.entries.map (fun p => (p.1, Wal.repair p.2)) = pre ++ [(id, f)] from hsnoc)
      obtain ⟨⟨id₀, f₀⟩, rfl, hentry⟩ := List.map_eq_singleton_iff.mp hlast
      obtain ⟨rfl, rfl⟩ := Prod.mk.inj hentry
      obtain ⟨epre₀, q, hle₀, hpre₀, -⟩ := forall₂_snoc (hbe ▸ hd.files)
      obtain rfl : epre₀ = epre :=
        (List.append_inj' (hle₀.symm.trans hle) rfl).1
      have hnew : Wal.repair f₀ = .new ∧ g = .new := hg.of_nil (repair_short hshort)
      rw [hnew.2] at hle
      have hheads : ∀ p ∈ dpre, ¬Short p.2.data := fun p hp =>
        hd.headers p (by rw [hbe, List.dropLast_concat]; exact hp)
      rw [hdir, hcut, if_pos (by simpa using hshort)] at hc
      refine Stage.outcome hs (torn_reheader _ hle hs ?_ n) rfl hs hr hc
      rw [hopened, hsnoc, hnew.1, map_repair_left hpre₀ hheads]
    · rw [hdir, hcut, if_neg (by simpa using hshort), hopened] at hc
      exact hrepaired.outcome hs hc

/-- An open, complete or cut short, loses nothing: all it works on is on stable storage. -/
theorem open_outcome {b : Wal UInt8} {l : Wal Record} (hd : DirReads b.dir l.dir)
    (hb : b = { render l with dir := b.dir }) (hs : Sealed l.dir)
    (hinc : (records l.dir).Pairwise (fun a b => a.seqno < b.seqno))
    (hr : ∀ r ∈ records l.dir, Readable r) (hn : 0 < l.fsyncEveryN)
    (h₀ : l.appendsSinceSync = 0) (cut : Wal.Cut) {d' : OrderedMap ℕ (DurableFile UInt8)}
    (hc : Crash (b.open cut).1.dir d') : ∃ e', DirReads d' e' ∧ Outcome l [] e' := by
  cases cut with
  | rollOpen =>
    have hrepaired := hd.repairFirst b.dir.keys.length
    rw [repairFirst_all] at hrepaired
    rcases open_dir .rollOpen b with ⟨-, hdir⟩ | ⟨_, _, _, -, hdir⟩ <;>
    · rw [hdir] at hc
      exact hrepaired.outcome hs hc
  | header n => exact open_header_outcome hd hs hr (writesHeader_header n) hc
  | headerFlush n => exact open_header_outcome hd hs hr (writesHeader_headerFlush n) hc
  | headerSync => exact open_header_outcome hd hs hr writesHeader_headerSync hc
  | never | rollFlush _ | rollSync | record _ | recordSpill _ | recordFlush _ | recordSync =>
    have hrep : l.dir.map WalLog.repair = l.dir :=
      OrderedMap.ext_entries (map_repair_right hd.files)
    obtain ⟨hi, -, hrec, hse⟩ := intact_open hs hrep hinc hn h₀
    have hopen : (b.open .never).1 = render (WalLog.open l).1 :=
      congrArg Prod.fst (open_render hd hb)
    have hc' : Crash (b.open .never).1.dir d' := hc
    rw [hopen] at hc'
    exact Stage.outcome hs (torn_render hi.toLive) hrec hse hr hc'

end LsmKv
