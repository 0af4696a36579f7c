import LsmKv.FileNames
import LsmKv.WalAgreement

/-!
# The numbers of segments

An operation on the log begins at most one segment, one above the active one. As long as that has
no twelve digits, everything in the directory is listed.
-/

namespace LsmKv
open WalFormat FileNames

namespace Wal

/-- The segments of the log, and the one it writes to, have names that are found again. -/
structure Listable (w : Wal UInt8) : Prop where
  dir : FileNames.Listable w.dir
  active : w.activeId < 10 ^ 11

variable {w : Wal UInt8}

theorem listable_onActive (hdir : FileNames.Listable w.dir) (hactive : w.activeId < 10 ^ 11)
    (g : DurableFile UInt8 → DurableFile UInt8) : (w.onActive g).Listable := by
  refine ⟨fun id hid => ?_, hactive⟩
  rcases mem_keys_insert.mp hid with rfl | hid
  · exact hactive
  · exact hdir id hid

theorem Listable.onActive (h : w.Listable) (g : DurableFile UInt8 → DurableFile UInt8) :
    (w.onActive g).Listable := listable_onActive h.dir h.active g

theorem listable_openFile (hdir : FileNames.Listable w.dir) {id : ℕ} (hid : id < 10 ^ 11) :
    (w.openFile id).Listable :=
  listable_onActive (w := { w with isOpen := true, activeId := id }) hdir hid _

theorem Listable.openActiveSegment (h : w.Listable) (cut : Cut) {id : ℕ} (hid : id < 10 ^ 11)
    (fresh : Bool) : (w.openActiveSegment cut id fresh).1.Listable := by
  have hfile := listable_openFile h.dir hid
  have hdone := (hfile.onActive (·.append header)).onActive (·.sync)
  rw [Wal.openActiveSegment]
  split
  · exact h
  · dsimp only
    cases fresh with
    | false => exact ⟨hfile.dir, hfile.active⟩
    | true => cases cut with
      | header n | headerFlush n => exact hfile.onActive (·.append (header.take n))
      | headerSync => exact hfile.onActive (·.append header)
      | never | rollFlush _ | rollSync | rollOpen | record _ | recordSpill _ | recordFlush _
      | recordSync => exact ⟨hdone.dir, hdone.active⟩

theorem Listable.rollSegment (h : w.Listable) (cut : Cut) (hnext : w.activeId + 1 < 10 ^ 11) :
    (w.rollSegment cut).1.Listable := by
  have hclosed : (w.onActive (·.sync)).closeFile.Listable :=
    ⟨(h.onActive (·.sync)).dir, h.active⟩
  have hnew := hclosed.openActiveSegment cut hnext true
  unfold Wal.rollSegment
  split
  · exact h.onActive (·.lose _)
  · exact h
  · rcases hres : (w.onActive (·.sync)).closeFile.openActiveSegment cut (w.activeId + 1) true with
      ⟨w', e | u⟩ <;> rw [hres] at hnew
    · exact hnew
    · exact ⟨hnew.dir, hnew.active⟩

theorem Listable.writeRecord (h : w.Listable) (r : Record) : (w.writeRecord r).Listable :=
  ⟨(h.onActive (·.append (frame r))).dir, h.active⟩

theorem Listable.appendRecord (h : w.Listable) (cut : Cut) (r : Record) :
    (w.appendRecord cut r).1.Listable := by
  have hwrite := h.writeRecord r
  have hsync := hwrite.onActive DurableFile.sync
  unfold Wal.appendRecord
  split
  · exact h.onActive (·.append ((frame r).take _))
  · exact h.onActive (fun f => (f.append (frame r)).lose _)
  · dsimp only
    split
    · split
      · exact hwrite.onActive (·.lose _)
      · exact hwrite
      · exact ⟨hsync.dir, hsync.active⟩
    · exact ⟨hwrite.dir, hwrite.active⟩

/-- Only a roll needs a new number. -/
theorem Listable.request (h : w.Listable) (cut : Cut) {q : Request}
    (hnext : w.mustRoll (w.nextRecord q.isDel q.key q.value) → w.activeId + 1 < 10 ^ 11) :
    (w.request cut q).1.Listable := by
  rw [request_eq, Wal.append]
  rcases Wal.checkAppend w.isOpen q.key q.value with e | u
  · exact h
  dsimp only
  split
  · rename_i hroll
    have hrolled := h.rollSegment cut (hnext hroll)
    rcases hres : w.rollSegment cut with ⟨w', e | u⟩ <;> rw [hres] at hrolled
    · exact hrolled
    · exact hrolled.appendRecord cut _
  · exact h.appendRecord cut _

theorem Listable.roll (h : w.Listable) (cut : Cut) (hnext : w.activeId + 1 < 10 ^ 11) :
    (w.roll cut).1.Listable := by
  rw [Wal.roll]
  split
  · exact h
  · have hrolled := h.rollSegment cut hnext
    rcases hres : w.rollSegment cut with ⟨w', e | u⟩ <;> rwa [hres] at hrolled

/-- Recovery goes on in the last segment it lists, or begins the first. -/
theorem Listable.open (h : w.Listable) (cut : Cut) : (w.open cut).1.Listable := by
  have hdir : FileNames.Listable w.scanned.dir := by
    intro id hid
    refine h.dir id ?_
    have hkeys : w.scanned.dir.keys = w.dir.keys := OrderedMap.keys_map _ _
    rwa [hkeys] at hid
  have hscanned : w.scanned.Listable := ⟨hdir, h.active⟩
  unfold Wal.open
  dsimp only
  rcases hlast : w.scanned.dir.entries.getLast? with _ | ⟨id, f⟩
  · have hone : 1 < 10 ^ 11 := by norm_num
    have hopen := hscanned.openActiveSegment cut hone true
    rcases hres : w.scanned.openActiveSegment cut 1 true with ⟨w', e | u⟩ <;> rw [hres] at hopen
    · exact hopen
    · exact ⟨hopen.dir, hopen.active⟩
  · have hid : id < 10 ^ 11 :=
      hdir id (List.mem_map_of_mem (List.mem_of_getLast? hlast))
    have hopen := hscanned.openActiveSegment cut hid (f.data.length < kHeaderSize)
    dsimp only
    rcases hres : w.scanned.openActiveSegment cut id (decide (f.data.length < kHeaderSize)) with
      ⟨w', e | u⟩ <;> rwa [hres] at hopen

theorem Listable.foldl_removeStep (h : w.Listable) (watermark : ℕ) (ids : List ℕ) :
    (ids.foldl (removeStep watermark) w).Listable := by
  induction ids generalizing w with
  | nil => exact h
  | cons id ids ih =>
    refine ih ?_
    rw [removeStep]
    split
    · exact ⟨fun k hk => h.dir k (mem_keys_erase.mp hk).2, h.active⟩
    · exact h

theorem Listable.close (h : w.Listable) : w.close.Listable := by
  rw [Wal.close]
  split
  · have hsync := h.onActive DurableFile.sync
    exact ⟨hsync.dir, hsync.active⟩
  · exact h

end Wal
end LsmKv
