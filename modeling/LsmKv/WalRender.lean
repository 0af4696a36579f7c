import LsmKv.WalScan

/-!
# The byte log renders the record log

`render` writes every segment of a record log out in bytes. Appending, rolling, closing and
removing segments commute with it.
-/

namespace LsmKv
open WalFormat

/-- A segment written out, with the bytes of its synced records synced. -/
def renderFile (f : DurableFile Record) : DurableFile UInt8 where
  data := segmentData f.data
  synced := (segmentData (f.data.take f.synced)).length
  synced_le := by
    conv_rhs => rw [← List.take_append_drop f.synced f.data, segmentData_append]
    rw [List.length_append]
    exact Nat.le_add_right _ _

theorem renderFile_append (f : DurableFile Record) (r : Record) :
    renderFile (f.append [r]) = (renderFile f).append (frame r) := by
  apply DurableFile.ext
  · exact segmentData_snoc f.data r
  · show (segmentData ((f.data ++ [r]).take f.synced)).length = _
    rw [List.take_append_of_le_length f.synced_le]
    rfl

theorem renderFile_sync (f : DurableFile Record) : renderFile f.sync = (renderFile f).sync := by
  apply DurableFile.ext
  · rfl
  · show (segmentData (f.data.take f.data.length)).length = _
    rw [List.take_length]
    rfl

theorem renderFile_durable (rs : List Record) :
    renderFile (.durable rs) = .durable (segmentData rs) :=
  renderFile_sync (.durable rs)

/-- A new file with a synced header is an empty segment. -/
theorem renderFile_new : renderFile .new = (DurableFile.new.append header).sync := by
  apply DurableFile.ext <;> simp [renderFile, segmentData, DurableFile.new]

def render (l : Wal Record) : Wal UInt8 :=
  ⟨l.dir.map renderFile, l.fsyncEveryN, l.rollBytes, l.isOpen, l.segmentMaxSeqno, l.activeId,
    l.activeBytes, l.totalSegments, l.lastSeqno, l.appendsSinceSync⟩

@[simp] theorem render_dir (l : Wal Record) : (render l).dir = l.dir.map renderFile := rfl
@[simp] theorem render_isOpen (l : Wal Record) : (render l).isOpen = l.isOpen := rfl
@[simp] theorem render_activeId (l : Wal Record) : (render l).activeId = l.activeId := rfl
@[simp] theorem render_lastSeqno (l : Wal Record) : (render l).lastSeqno = l.lastSeqno := rfl
@[simp] theorem render_mustRoll (l : Wal Record) (r : Record) :
    (render l).mustRoll r = l.mustRoll r := rfl

theorem ends_render {l : Wal Record} {pre f} (h : l.Ends pre f) :
    (render l).Ends (pre.map (fun p => (p.1, renderFile p.2))) (renderFile f) := by
  show (l.dir.map renderFile).entries = _
  rw [OrderedMap.entries_map, h, List.map_append]
  rfl

/-! ## The operations of an open log -/

/-- Changing the active segment alike on both sides. -/
theorem onActive_render {l : Wal Record} {g : DurableFile Record → DurableFile Record}
    {g' : DurableFile UInt8 → DurableFile UInt8}
    (hg : g' (render l).activeFile = renderFile (g l.activeFile)) :
    (render l).onActive g' = render (l.onActive g) := by
  have hdir : (l.dir.map renderFile).insert l.activeId (g' (render l).activeFile) =
      (l.dir.insert l.activeId (g l.activeFile)).map renderFile := by
    rw [OrderedMap.map_insert, hg]
  simp only [Wal.onActive, render] at hdir ⊢
  rw [hdir]

theorem sync_render {l : Wal Record} {pre f} (h : l.Ends pre f) :
    (render l).sync = render l.sync := by
  have ho : (render l).onActive (·.sync) = render (l.onActive (·.sync)) := onActive_render (by
    rw [(ends_render h).activeFile, h.activeFile, renderFile_sync])
  exact congrArg (fun w : Wal UInt8 => { w with appendsSinceSync := 0 }) ho

theorem close_render {l : Wal Record} {pre f} (h : l.Ends pre f) :
    (render l).close = render l.close := by
  rw [Wal.close, Wal.close, render_isOpen, sync_render h]
  split <;> rfl

theorem writeRecord_render {l : Wal Record} {pre f} (h : l.Ends pre f) (r : Record) :
    (render l).writeRecord r = render (WalLog.writeRecord r l) := by
  have ho : (render l).onActive (·.append (frame r)) = render (l.onActive (·.append [r])) :=
    onActive_render (by
      rw [(ends_render h).activeFile, h.activeFile, renderFile_append])
  rw [Wal.writeRecord, ho, length_frame]
  rfl

theorem appendRecord_render {l : Wal Record} {pre f} (h : l.Ends pre f) (r : Record) :
    (render l).appendRecord .never r =
      (render (WalLog.appendRecord r l), .ok r.seqno) := by
  have hs := sync_render (WalLog.ends_writeRecord h r)
  simp only [Wal.appendRecord, writeRecord_render h]
  rw [WalLog.appendRecord, WalLog.syncPolicy_writeRecord]
  show (if l.fsyncEveryN ≤ l.appendsSinceSync + 1 then _ else _) = _
  split
  · rw [hs]
    rfl
  · rfl

theorem measure_render {l : Wal Record} {f : DurableFile Record}
    (h : l.dir.find? l.activeId = some f) :
    (render l).measure = render (WalLog.measure l) := by
  have hl : (render l).activeFile.data.length = WalLog.segmentBytes l.activeFile.data := by
    simp [Wal.activeFile, h, renderFile]
  rw [Wal.measure, hl]
  rfl

/-- Writing the header of a segment that is new or was emptied. -/
theorem openActiveSegment_fresh {l : Wal Record} {d : OrderedMap ℕ (DurableFile UInt8)} {id : ℕ}
    (hd : (d.find? id).getD .new = .new) (hl : (l.dir.find? id).getD .new = .new)
    (hi : d.insert id (renderFile .new) = (l.dir.insert id .new).map renderFile) :
    ({ render l with dir := d } : Wal UInt8).openActiveSegment .never id true =
      (render (WalLog.openActiveSegment id l), .ok ()) := by
  have hfile : ((({ render l with dir := d } : Wal UInt8).openFile id).onActive
      (·.append header)).onActive (·.sync) = render (l.openFile id) := by
    rw [Wal.onActive_onActive, Wal.openFile, Wal.onActive_onActive]
    simp only [Wal.openFile, Wal.onActive, Wal.activeFile, render, hd, hl]
    rw [← renderFile_new, hi]
  simp only [Wal.openActiveSegment, hfile, measure_render (l.find?_openFile id)]
  rfl

theorem openActiveSegment_fresh_render {l : Wal Record} {id : ℕ}
    (hid : l.dir.find? id = none) :
    (render l).openActiveSegment .never id true =
      (render (WalLog.openActiveSegment id l), .ok ()) :=
  openActiveSegment_fresh (by simp [hid]) (by simp [hid]) (OrderedMap.map_insert _ _ _ _).symm

/-- Opening an existing segment for append. -/
theorem openActiveSegment_reopen_render {l : Wal Record} {id : ℕ} {f : DurableFile Record}
    (hid : l.dir.find? id = some f) :
    (render l).openActiveSegment .never id false =
      (render (WalLog.openActiveSegment id l), .ok ()) := by
  have hfile : (render l).openFile id = render (l.openFile id) := by
    refine onActive_render (l := { l with isOpen := true, activeId := id }) ?_
    simp [Wal.activeFile, hid, render]
  simp only [Wal.openActiveSegment, hfile, measure_render (l.find?_openFile id)]
  rfl

theorem rollSegment_render {l : Wal Record} {pre f} (h : l.Ends pre f) :
    (render l).rollSegment .never = (render (WalLog.rollSegment l), .ok ()) := by
  have hsync : (render l).onActive (·.sync) = render (l.onActive (·.sync)) :=
    onActive_render (by rw [(ends_render h).activeFile, h.activeFile, renderFile_sync])
  have hclose : ((render l).onActive (·.sync)).closeFile =
      render (l.onActive (·.sync)).closeFile := by rw [hsync]; rfl
  have hends : (l.onActive (·.sync)).closeFile.Ends pre f.sync := h.onActive (·.sync)
  have hopen : (render (l.onActive (·.sync)).closeFile).openActiveSegment .never
      (l.activeId + 1) true = _ := openActiveSegment_fresh_render hends.next_none
  unfold Wal.rollSegment
  dsimp only
  rw [hclose, render_activeId, hopen]
  rfl

/-- An append in bytes is the append of the record, wrapped counter included. -/
theorem append_render {l : Wal Record} {pre f} (h : l.Ends pre f) (del : Bool)
    (key value : Bytes) :
    (render l).append .never del key value =
      (render (WalLog.appendAs ((l.lastSeqno + 1) % 2 ^ 64) del key value l).1,
        (WalLog.appendAs ((l.lastSeqno + 1) % 2 ^ 64) del key value l).2) := by
  rw [Wal.append, WalLog.appendAs, render_isOpen]
  rcases Wal.checkAppend l.isOpen key value with e | u
  · rfl
  · set r : Record := ⟨del, key, value, (l.lastSeqno + 1) % 2 ^ 64⟩ with hr
    have hn : (render l).nextRecord del key value = r := rfl
    simp only [hn, render_mustRoll]
    split
    · rw [rollSegment_render h]
      exact appendRecord_render (WalLog.ends_rollSegment h) r
    · exact appendRecord_render h r

theorem roll_render {l : Wal Record} {pre f} (h : l.Ends pre f) :
    (render l).roll .never = (render (WalLog.roll l).1, (WalLog.roll l).2) := by
  rw [Wal.roll, WalLog.roll, render_isOpen]
  split
  · rfl
  · rw [rollSegment_render h]
    rfl

theorem removeStep_render (watermark : ℕ) (l : Wal Record) (id : ℕ) :
    Wal.removeStep watermark (render l) id = render (Wal.removeStep watermark l id) := by
  have hc : (render l).covered watermark id = l.covered watermark id := rfl
  rw [Wal.removeStep, Wal.removeStep, hc]
  split
  · simp only [render, OrderedMap.map_erase]
  · rfl

theorem foldl_removeStep_render (watermark : ℕ) (l : Wal Record) (ids : List ℕ) :
    ids.foldl (Wal.removeStep watermark) (render l) =
      render (ids.foldl (Wal.removeStep watermark) l) := by
  induction ids generalizing l with
  | nil => rfl
  | cons id ids ih => rw [List.foldl_cons, List.foldl_cons, removeStep_render, ih]

theorem removeSegmentsCovered_render (watermark : ℕ) (l : Wal Record) :
    (render l).removeSegmentsCovered watermark =
      (render (l.removeSegmentsCovered watermark).1,
        (l.removeSegmentsCovered watermark).2) := by
  rw [Wal.removeSegmentsCovered, Wal.removeSegmentsCovered, render_dir, OrderedMap.keys_map,
    foldl_removeStep_render]
  rfl

end LsmKv
