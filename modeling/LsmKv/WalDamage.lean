import LsmKv.CrcBursts
import LsmKv.WalAgreement

/-!
# A damaged record

A closed log with up to 32 bits in a row changed under the checksum of one record. The scan of
that segment stops in front of the record, and the other segments are read as before; so opening
the log replays everything but the damaged record and what its segment holds behind it.
-/

namespace LsmKv
open WalFormat WalLog

/-- A file with these bytes written over what stood at `off`. -/
def overwrite (file : Bytes) (off : ℕ) (bytes : Bytes) : Bytes :=
  file.take off ++ (bytes ++ file.drop (off + bytes.length))

theorem overwrite_append {pre old new : Bytes} (hlen : new.length = old.length) (post : Bytes) :
    overwrite (pre ++ (old ++ post)) pre.length new = pre ++ (new ++ post) := by
  rw [overwrite, List.take_left, hlen, ← List.drop_drop, List.drop_left, List.drop_left]

/-! ## One frame -/

/-- What the checksum of a record covers, and the checksum. -/
def checked (r : Record) : Bytes := payload r ++ leBytes 4 (crc32 (payload r))

theorem frame_eq_checked {r : Record} (h : Readable r) :
    frame r = leBytes 4 (payloadSize r) ++ checked r := frame_of_lt (payloadSize_lt h.size)

theorem length_checked (r : Record) : (checked r).length = payloadSize r + 4 := by
  rw [checked, List.length_append, length_payload, length_leBytes]

/-- The length in front still says where the record ends, but its checksum fails. -/
theorem readFrame_burst {r : Record} {changed : Bytes} (h : Readable r)
    (hb : Burst (checked r) changed) (rest : Bytes) :
    readFrame (leBytes 4 (payloadSize r) ++ (changed ++ rest)) = none := by
  have hlen : changed.length = payloadSize r + 4 := hb.length.trans (length_checked r)
  have hsize : leNat ((leBytes 4 (payloadSize r) ++ (changed ++ rest)).take 4) = payloadSize r := by
    rw [List.take_left' (length_leBytes ..), leNat_leBytes_of_lt (payloadSize_lt h.size)]
  have hbuf : ((leBytes 4 (payloadSize r) ++ (changed ++ rest)).drop 4).take (payloadSize r + 4) =
      changed := by
    rw [List.drop_left' (length_leBytes ..), List.take_left' hlen]
  have hcrc : crc32 (changed.take (payloadSize r)) ≠ leNat (changed.drop (payloadSize r)) := by
    have hmatch : crc32 (payload r) = leNat (leBytes 4 (crc32 (payload r))) :=
      (leNat_leBytes_of_lt (crc32_lt _)).symm
    refine crc32_ne_of_burst (length_leBytes ..) ?_ hmatch ?_
    · rw [List.length_drop]
      omega
    · rwa [List.take_append_drop]
  simp only [readFrame, hsize, hbuf, if_pos hcrc, ite_self]

/-- A segment with the checked bytes of one record overwritten. -/
theorem overwrite_segmentData {r : Record} {changed : Bytes} (h : Readable r)
    (hlen : changed.length = (checked r).length) (before after : List Record) :
    overwrite (segmentData (before ++ r :: after)) (segmentBytes before + 4) changed =
      segmentData before ++ (leBytes 4 (payloadSize r) ++ (changed ++ codec.encodeAll after)) := by
  have hdata : segmentData (before ++ r :: after) =
      (segmentData before ++ leBytes 4 (payloadSize r)) ++
        (checked r ++ codec.encodeAll after) := by
    have hframe : codec.encode r = leBytes 4 (payloadSize r) ++ checked r := frame_eq_checked h
    rw [segmentData_append, FrameCodec.encodeAll_cons, hframe]
    simp only [List.append_assoc]
  have hoff : segmentBytes before + 4 =
      (segmentData before ++ leBytes 4 (payloadSize r)).length := by
    rw [List.length_append, length_segmentData, length_leBytes]
  rw [hdata, hoff, overwrite_append hlen, List.append_assoc]

theorem scanSegment_burst {before after : List Record} {r : Record} {changed : Bytes}
    (h : ∀ x ∈ before ++ r :: after, Readable x) (hb : Burst (checked r) changed) :
    Reads (overwrite (segmentData (before ++ r :: after)) (segmentBytes before + 4) changed)
        before ∧
      (Wal.scanSegment (overwrite (segmentData (before ++ r :: after))
        (segmentBytes before + 4) changed)).1.goodBytes = segmentBytes before ∧
      (Wal.scanSegment (overwrite (segmentData (before ++ r :: after))
        (segmentBytes before + 4) changed)).1.clean = false := by
  have hr : Readable r := h r (List.mem_append_right _ List.mem_cons_self)
  have hbefore : ∀ x ∈ before, Readable x := fun x hx => h x (List.mem_append_left _ hx)
  have hnone := readFrame_burst hr hb (codec.encodeAll after)
  rw [overwrite_segmentData hr hb.length before after, scanSegment_tail hbefore hnone]
  refine ⟨⟨hbefore, _, rfl, hnone⟩, rfl, ?_⟩
  rw [decide_eq_false_iff_not, List.append_eq_nil_iff]
  rintro ⟨hnil, -⟩
  have hfour := congrArg List.length hnil
  rw [length_leBytes] at hfour
  cases hfour

/-! ## The whole directory -/

section
variable {ν : Type*}

/-- Overwriting a key leaves the others where they are. -/
theorem OrderedMap.entries_insert_mid {m : OrderedMap ℕ ν} {k : ℕ} {pre post : List (ℕ × ν)}
    {v : ν} (h : m.entries = pre ++ (k, v) :: post) (v' : ν) :
    (m.insert k v').entries = pre ++ (k, v') :: post := by
  have hlt : ∀ p ∈ pre, p.1 < k := fun p hp =>
    (List.pairwise_append.mp (h ▸ m.sorted)).2.2 p hp (k, v) List.mem_cons_self
  have aux : ∀ l : List (ℕ × ν), (∀ p ∈ l, p.1 < k) →
      insertList k v' (l ++ (k, v) :: post) = l ++ (k, v') :: post := by
    intro l hl
    induction l with
    | nil => simp [insertList]
    | cons a l ih =>
      have ha : a.1 < k := hl a List.mem_cons_self
      have hih := ih (fun p hp => hl p (List.mem_cons_of_mem _ hp))
      simp [insertList, not_lt.mpr ha.le, ha.ne, hih]
  show insertList k v' m.entries = _
  rw [h]
  exact aux pre hlt

end

/-- Clean segments do not change what the report says about truncation. -/
theorem foldl_scanReport_clean {d : List (ℕ × DurableFile UInt8)}
    (h : ∀ p ∈ d, (Wal.scanSegment p.2.data).1.clean = true) (r : WalRecoveryReport) :
    (d.foldl Wal.scanReport r).truncated = r.truncated ∧
      (d.foldl Wal.scanReport r).truncatedSegment = r.truncatedSegment ∧
      (d.foldl Wal.scanReport r).truncatedTo = r.truncatedTo := by
  induction d generalizing r with
  | nil => exact ⟨rfl, rfl, rfl⟩
  | cons p d ih =>
    have hp := h p List.mem_cons_self
    rw [List.foldl_cons]
    obtain ⟨h₁, h₂, h₃⟩ := ih (fun p hp => h p (List.mem_cons_of_mem _ hp)) (Wal.scanReport r p)
    rw [h₁, h₂, h₃, Wal.scanReport]
    simp only [hp, if_true, and_self]

/-- What the report says when one segment is not clean. -/
theorem foldl_scanReport_one {pre post : List (ℕ × DurableFile UInt8)} {id : ℕ}
    {f : DurableFile UInt8} (hpre : ∀ p ∈ pre, (Wal.scanSegment p.2.data).1.clean = true)
    (hpost : ∀ p ∈ post, (Wal.scanSegment p.2.data).1.clean = true)
    (hf : (Wal.scanSegment f.data).1.clean = false) :
    ((pre ++ (id, f) :: post).foldl Wal.scanReport {}).truncated = 1 ∧
      ((pre ++ (id, f) :: post).foldl Wal.scanReport {}).truncatedSegment = some id ∧
      ((pre ++ (id, f) :: post).foldl Wal.scanReport {}).truncatedTo =
        (Wal.scanSegment f.data).1.goodBytes := by
  obtain ⟨h₁, -, -⟩ := foldl_scanReport_clean hpre {}
  rw [List.foldl_append, List.foldl_cons]
  obtain ⟨h₁', h₂', h₃'⟩ := foldl_scanReport_clean hpost
    (Wal.scanReport (pre.foldl Wal.scanReport {}) (id, f))
  rw [h₁', h₂', h₃', Wal.scanReport]
  simp only [hf, Bool.false_eq_true, if_false, h₁, and_self]

/-- Opening a log that has a segment leaves the directory as recovery made it. -/
theorem open_dir_of_repaired {l : Wal Record} (hr : l.dir.map WalLog.repair = l.dir)
    (hne : l.dir.entries ≠ []) :
    (WalLog.open l).1.dir = l.dir ∧ (WalLog.open l).1.lastSeqno = maxSeqno (records l.dir) := by
  obtain ⟨pre, ⟨id, f⟩, he⟩ := List.eq_nil_or_concat' l.dir.entries |>.resolve_left hne
  have hlast : l.dir.entries.getLast? = some (id, f) := by
    rw [he, List.getLast?_append]
    rfl
  have hfind : l.dir.find? id = some f := OrderedMap.find?_last he
  unfold WalLog.open
  simp only [hr, hlast]
  exact ⟨Wal.dir_openFile hfind, rfl⟩

/-- What the log opens as when the checked bytes of a record behind `before` were overwritten in
segment `id`: every record is replayed but that one and those behind it in its segment. -/
structure CutAt (e : OrderedMap ℕ (DurableFile Record)) (id : ℕ) (before : List Record)
    (w : Wal UInt8) (report : WalRecoveryReport) (replayed : List Record) : Prop where
  kept : replayed = records (e.insert id (.durable before))
  dir : w.dir = (e.insert id (.durable before)).map renderFile
  lastSeqno : w.lastSeqno = maxSeqno (records (e.insert id (.durable before)))
  segments : report.segments = e.entries.length
  truncated : report.truncated = 1
  truncatedSegment : report.truncatedSegment = some id
  truncatedTo : report.truncatedTo = segmentBytes before

section
variable {e : OrderedMap ℕ (DurableFile Record)} {id : ℕ} {before after : List Record}
  {r : Record} {changed : Bytes}

theorem fileReads_sealed {f : DurableFile Record} (hs : f = .durable f.data)
    (hr : ∀ r ∈ f.data, Readable r) : FileReads (renderFile f) f := by
  refine .whole ?_ hs (reads_segmentData hr)
  conv_lhs => rw [hs]
  exact renderFile_durable _

/-- The damaged directory reads as the one with the damaged segment cut. -/
theorem dirReads_burst {d : OrderedMap ℕ (DurableFile UInt8)}
    {k : OrderedMap ℕ (DurableFile Record)} {pre post : List (ℕ × DurableFile Record)}
    (hs : ∀ p ∈ pre ++ post, p.2 = .durable p.2.data)
    (hr : ∀ p ∈ pre ++ post, ∀ x ∈ p.2.data, Readable x) {g : Bytes}
    (hd : d.entries = pre.map (fun p => (p.1, renderFile p.2)) ++
      (id, .durable g) :: post.map (fun p => (p.1, renderFile p.2)))
    (hk : k.entries = pre ++ (id, .durable before) :: post) (hg : Reads g before) :
    DirReads d k := by
  have hsame : ∀ l, (∀ p ∈ l, p ∈ pre ++ post) →
      List.Forall₂ EntryReads (l.map (fun p => (p.1, renderFile p.2))) l := by
    intro l hl
    rw [List.forall₂_map_left_iff, List.forall₂_same]
    exact fun p hp => ⟨rfl, fileReads_sealed (hs p (hl p hp)) (hr p (hl p hp))⟩
  have hfiles : List.Forall₂ EntryReads d.entries k.entries := by
    rw [hd, hk]
    refine List.rel_append (hsame pre (fun p hp => List.mem_append_left _ hp)) (.cons ?_ ?_)
    · exact ⟨rfl, .whole rfl rfl hg⟩
    · exact hsame post (fun p hp => List.mem_append_right _ hp)
  refine ⟨hfiles, fun p hp => ?_⟩
  have hmem := (List.dropLast_sublist _).subset hp
  rw [hd] at hmem
  rcases List.mem_append.mp hmem with hmem | hmem
  · obtain ⟨q, hq, rfl⟩ := List.mem_map.mp hmem
    exact (reads_segmentData (hr q (List.mem_append_left _ hq))).not_short
  · rcases List.mem_cons.mp hmem with rfl | hmem
    · exact hg.not_short
    · obtain ⟨q, hq, rfl⟩ := List.mem_map.mp hmem
      exact (reads_segmentData (hr q (List.mem_append_right _ hq))).not_short

/-- A change of a stored record that stays within 32 bits in a row is never replayed. -/
theorem open_of_burst (hs : Sealed e) (hr : ∀ r ∈ records e, Readable r)
    (hid : e.find? id = some (.durable (before ++ r :: after))) (hb : Burst (checked r) changed)
    (n rb : ℕ) :
    ∃ w report replayed,
      (Wal.create ((e.map renderFile).insert id (.durable (overwrite
          (segmentData (before ++ r :: after)) (segmentBytes before + 4) changed))) n rb).open
        .never = (w, .ok (report, replayed)) ∧ CutAt e id before w report replayed := by
  obtain ⟨pre, post, he⟩ := List.append_of_mem (OrderedMap.find?_eq_some_iff.mp hid)
  have hothers : ∀ p ∈ pre ++ post, p ∈ e.entries := by
    intro p hp
    rw [he]
    exact (List.sublist_cons_self (id, DurableFile.durable (before ++ r :: after)) post
      |>.append_left pre).subset hp
  have hmem : ∀ p ∈ e.entries, ∀ x ∈ p.2.data, Readable x := fun p hp x hx =>
    hr x (List.mem_flatMap.mpr ⟨p, hp, hx⟩)
  have hown : ∀ x ∈ before ++ r :: after, Readable x :=
    hmem _ (OrderedMap.find?_eq_some_iff.mp hid)
  obtain ⟨hreads, hgood, hclean⟩ := scanSegment_burst hown hb
  set g := overwrite (segmentData (before ++ r :: after)) (segmentBytes before + 4) changed
  have hkept : (e.insert id (.durable before)).entries = pre ++ (id, .durable before) :: post :=
    OrderedMap.entries_insert_mid he _
  have hdamaged : ((e.map renderFile).insert id (.durable g)).entries =
      pre.map (fun p => (p.1, renderFile p.2)) ++
        (id, .durable g) :: post.map (fun p => (p.1, renderFile p.2)) := by
    refine OrderedMap.entries_insert_mid (v := renderFile (.durable (before ++ r :: after))) ?_ _
    rw [OrderedMap.entries_map, he, List.map_append, List.map_cons]
  have hd := dirReads_burst (fun p hp => hs p (hothers p hp))
    (fun p hp => hmem p (hothers p hp)) hdamaged hkept hreads
  have hopen := open_render (b := Wal.create ((e.map renderFile).insert id (.durable g)) n rb)
    (l := Wal.create (e.insert id (.durable before)) n rb) hd rfl
  have hrep : (e.insert id (.durable before)).map WalLog.repair = e.insert id (.durable before) :=
    OrderedMap.ext_entries (map_repair_right hd.files)
  obtain ⟨hdir, hlast⟩ := open_dir_of_repaired
    (l := Wal.create (e.insert id (.durable before)) n rb) hrep (by
      show (e.insert id (.durable before)).entries ≠ []
      rw [hkept]
      exact List.append_ne_nil_of_right_ne_nil _ (List.cons_ne_nil _ _))
  have hrest : ∀ l : List (ℕ × DurableFile Record), (∀ p ∈ l, p ∈ pre ++ post) →
      ∀ p ∈ l.map (fun p => (p.1, renderFile p.2)), (Wal.scanSegment p.2.data).1.clean = true := by
    intro l hl p hp
    obtain ⟨q, hq, rfl⟩ := List.mem_map.mp hp
    exact (reads_segmentData (hmem q (hothers q (hl q hq)))).clean_iff.mpr rfl
  obtain ⟨h₁, h₂, h₃⟩ := @foldl_scanReport_one _ _ id (.durable g)
    (hrest pre (fun p hp => List.mem_append_left _ hp))
    (hrest post (fun p hp => List.mem_append_right _ hp)) hclean
  rw [← hdamaged] at h₁ h₂ h₃
  refine ⟨_, _, _, hopen, ?_, ?_, hlast, ?_, h₁, h₂, h₃.trans hgood⟩
  · rw [open_snd]
    exact congrArg records hrep
  · rw [render_dir, hdir]
    rfl
  · show (((e.map renderFile).insert id (.durable g)).entries.foldl Wal.scanReport {}).segments = _
    rw [scanReport_segments, hdamaged, he]
    simp

/-- Two segments; the value of the second record of the first one garbled. -/
theorem open_of_burst_garbledValue : ∃ w report replayed,
    (Wal.create (((∅ : OrderedMap ℕ (DurableFile Record)).insert 1 (.durable
        [⟨false, [0x61], [1], 1⟩, ⟨false, [0x62], [1, 2, 3], 2⟩])
      |>.insert 2 (.durable [⟨true, [0x61], [], 3⟩])).map renderFile |>.insert 1 (.durable
        (overwrite (segmentData [⟨false, [0x61], [1], 1⟩, ⟨false, [0x62], [1, 2, 3], 2⟩])
          (segmentBytes [⟨false, [0x61], [1], 1⟩] + 4)
          ((payload ⟨false, [0x62], [1, 2, 3], 2⟩).take 18 ++ ([9, 2, 7] ++
            leBytes 4 (crc32 (payload ⟨false, [0x62], [1, 2, 3], 2⟩))))))) 1 100).open .never =
      (w, .ok (report, replayed)) ∧
      replayed = [⟨false, [0x61], [1], 1⟩, ⟨true, [0x61], [], 3⟩] := by
  obtain ⟨w, report, replayed, hopen, hcut⟩ := @open_of_burst
    (((∅ : OrderedMap ℕ (DurableFile Record)).insert 1 (.durable
      [⟨false, [0x61], [1], 1⟩, ⟨false, [0x62], [1, 2, 3], 2⟩])).insert 2 (.durable
        [⟨true, [0x61], [], 3⟩])) 1 [⟨false, [0x61], [1], 1⟩] [] ⟨false, [0x62], [1, 2, 3], 2⟩ _
    (by simp [Sealed, OrderedMap.insert, OrderedMap.insertList])
    (by
      intro r hr
      rcases (show r = _ ∨ r = _ ∨ r = _ by simpa [records, OrderedMap.insert,
        OrderedMap.insertList] using hr) with rfl | rfl | rfl <;>
        exact ⟨by decide, by decide, by decide⟩)
    rfl (@burst_of_bytes ((payload ⟨false, [0x62], [1, 2, 3], 2⟩).take 18)
      (leBytes 4 (crc32 (payload ⟨false, [0x62], [1, 2, 3], 2⟩))) [1, 2, 3] [9, 2, 7] rfl
      (by decide) (by decide)) 1 100
  exact ⟨w, report, replayed, hopen, hcut.kept⟩

end

end LsmKv
