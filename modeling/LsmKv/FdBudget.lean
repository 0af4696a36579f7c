import LsmKv.FdPool
import LsmKv.FooterChecks
import LsmKv.Recency
import Mathlib.Logic.Function.Basic

/-!
# The descriptor budget

Whether a reader's file is open is recorded in the reader and in the pool's list. One thread
makes and destroys readers, validates footers and gets, and the files change as they like in
between; the two records stay in step whatever fails.
-/

namespace LsmKv
namespace Sst
namespace TableReader

def openFile (r : TableReader) : TableReader := { r with fileOpen := true }

/-- `close_file` with the lock held. -/
def closeFile (r : TableReader) : TableReader := { r with fileOpen := false }

/-- `validate_footer` with the file it opens and, also when it throws, closes. -/
def checkFooter (r : TableReader) : TableReader × Except Fault Unit :=
  if r.fileOpen then
    if r.footerLoaded then (r, .ok ()) else loadFooter (r.file.getD []) r
  else match r.file with
    | none => (r, .error (.thrown ⟨.ioFailure, "cannot open SSTable"⟩))
    | some file =>
      if r.footerLoaded then (r.openFile.closeFile, .ok ())
      else match r.openFile.loadFooter file with
        | (r, result) => (r.closeFile, result)

theorem ensureOpen_of_closed {r : TableReader} (hclosed : ¬r.fileOpen = true) {file : Bytes}
    (hfile : r.file = some file) :
    r.ensureOpen = if r.footerLoaded then (r.openFile, .ok file)
      else match r.openFile.loadFooter file with
        | (r, .error e) => (r, .error e)
        | (r, .ok _) => (r, .ok file) := by
  rw [ensureOpen, if_neg hclosed]
  split
  · rename_i hnone
    cases hfile.symm.trans hnone
  · rename_i file' hfile'
    obtain rfl := Option.some.inj (hfile.symm.trans hfile')
    rfl

theorem loadFooter_fileOpen (file : Bytes) (r : TableReader) :
    (r.loadFooter file).1.fileOpen = r.fileOpen := by
  rcases loadFooter_leaves file r with ⟨r', hload, hsame, -⟩ | ⟨r', e, hload, -, hsame, -⟩
  · rw [hload]
    exact hsame.fileOpen
  · rw [hload]
    exact hsame.fileOpen

theorem checkFooter_fileOpen (r : TableReader) : r.checkFooter.1.fileOpen = r.fileOpen := by
  rw [checkFooter]
  split
  · split
    · rfl
    · exact loadFooter_fileOpen _ r
  · rename_i hclosed
    have hfalse : false = r.fileOpen := by simpa using hclosed
    split
    · rfl
    · split <;> exact hfalse

theorem closeFile_openFile {r : TableReader} (hclosed : r.fileOpen = false) :
    r.openFile.closeFile = r := by
  rw [openFile, closeFile, ← hclosed]

theorem loadFooter_openFile {r : TableReader} (hclosed : r.fileOpen = false) (file : Bytes) :
    ((r.openFile.loadFooter file).1.closeFile, (r.openFile.loadFooter file).2) =
      r.loadFooter file := by
  have hback := closeFile_openFile hclosed
  rw [loadFooter, loadFooter]
  split
  · rw [hback]
  split
  · rw [hback]
  dsimp only
  split
  · rw [hback]
  split
  · rw [hback]
  split <;> simp [closeFile, openFile, hclosed]

/-- Opened and closed again, the file is as it was. -/
theorem checkFooter_eq (r : TableReader) : r.checkFooter = r.validateFooter := by
  rw [checkFooter, validateFooter]
  split
  · rfl
  · rename_i hopen
    have hclosed : r.fileOpen = false := by simpa using hopen
    rcases r.file with _ | file
    · rfl
    dsimp only
    rw [closeFile_openFile hclosed, ← loadFooter_openFile hclosed]

end TableReader
end Sst

namespace FdBudget
open Sst (TableReader TableMeta BlockCache ReadContext Fault TableHit)
open Recency

/-! ## Readers that share a pool -/

/-- A reader, and whether its `pool_` is set. -/
structure Object where
  reader : TableReader
  pooled : Bool := false

/-- The pool with the readers by their addresses, and the block cache. -/
structure Fds where
  maxOpen : ℕ
  lru : List ℕ := []
  objects : ℕ → Option Object := fun _ => none
  cache : BlockCache

namespace Fds

/-- `FdPool(max_open)`. -/
def start (max_open : ℕ) (cache : BlockCache) : Fds where
  maxOpen := if max_open = 0 then 1 else max_open
  cache := cache

def set (r : ℕ) (o : Option Object) (s : Fds) : Fds :=
  { s with objects := Function.update s.objects r o }

def opened (s : Fds) (r : ℕ) : Bool := (s.objects r).any (·.reader.fileOpen)

/-- `try_close_file`. The caller holds the `io_mutex_` of one reader, and nobody else does
anything. -/
def tryCloseFile (locked v : ℕ) (s : Fds) : Fds × Bool :=
  if v = locked then (s, false)
  else (s.set v ((s.objects v).map fun o => { o with reader := o.reader.closeFile }), true)

/-- The second part of `on_open`. A victim that is busy is put back. -/
def closeVictims (locked : ℕ) : List ℕ → Fds → Fds
  | [], s => s
  | v :: vs, s => match s.tryCloseFile locked v with
    | (s, true) => closeVictims locked vs s
    | (s, false) => closeVictims locked vs { s with lru := s.lru ++ [v] }

/-- What `on_open` takes off the end of the list, the last one first. -/
def victims (r : ℕ) (s : Fds) : List ℕ := ((r :: s.lru).drop s.maxOpen).reverse

def onOpen (r : ℕ) (s : Fds) : Fds :=
  closeVictims r (s.victims r) { s with lru := (r :: s.lru).take s.maxOpen }

/-- `ensure_open`. A footer that fails leaves the file open and listed. -/
def ensureOpen (r : ℕ) (s : Fds) : Fds × Except Fault Bytes :=
  match s.objects r with
  | none => (s, .error .outside)
  | some o =>
    if o.reader.fileOpen then
      ({ s.set r (some ⟨o.reader, true⟩) with lru := FdPool.Pool.touch r s.lru },
        .ok (o.reader.file.getD []))
    else match o.reader.file with
      | none => (s.set r (some ⟨o.reader, true⟩),
          .error (.thrown ⟨.ioFailure, "cannot open SSTable"⟩))
      | some file =>
        let s := (s.set r (some ⟨o.reader.openFile, true⟩)).onOpen r
        if o.reader.footerLoaded then (s, .ok file)
        else match o.reader.openFile.loadFooter file with
          | (x, .error e) => (s.set r (some ⟨x, true⟩), .error e)
          | (x, .ok _) => (s.set r (some ⟨x, true⟩), .ok file)

/-- `TableReader::get`. -/
def get (r : ℕ) (key : Bytes) (s : Fds) : Fds × Except Fault (Option TableHit) :=
  match s.objects r with
  | none => (s, .error .outside)
  | some o =>
    if o.reader.InRange key then match s.ensureOpen r with
      | (s, .error e) => (s, .error e)
      | (s, .ok file) => match s.objects r with
        | none => (s, .error .outside)
        | some o =>
          let (c, hit) := ReadContext.searchBloom file key ⟨o.reader, s.cache, {}, {}⟩
          ({ s.set r (some { o with reader := c.reader }) with cache := c.cache }, hit)
    else (s, .ok none)

/-- The destructor, with `on_close`. -/
def destroy (r : ℕ) (s : Fds) : Fds :=
  match s.objects r with
  | none => s
  | some o => { s.set r none with
      lru := if o.pooled then s.lru.filter (· ≠ r) else s.lru }

def modifyReader (r : ℕ) (f : TableReader → TableReader) (s : Fds) : Fds :=
  s.set r ((s.objects r).map fun o => { o with reader := f o.reader })

end Fds

inductive Action where
  | construct (r : ℕ) (file : Option Bytes) (info : TableMeta) (cache_index_blocks : Bool)
  /-- the file changes on disk -/
  | disk (r : ℕ) (file : Option Bytes)
  | validateFooter (r : ℕ)
  | get (r : ℕ) (key : Bytes)
  | destroy (r : ℕ)

namespace Fds

/-- What cannot be called, since there is no such reader, does nothing. -/
def step (s : Fds) : Action → Fds
  | .construct r file info cache_index_blocks =>
    if (s.objects r).isSome then s
    else s.set r (some ⟨{ file := file, info := info, cacheIndexBlocks := cache_index_blocks },
      false⟩)
  | .disk r file => s.modifyReader r (fun x => { x with file := file })
  | .validateFooter r => s.modifyReader r (fun x => x.checkFooter.1)
  | .get r key => (s.get r key).1
  | .destroy r => s.destroy r

/-- The reader whose file the action asks for. -/
def use (s : Fds) : Action → List ℕ
  | .get r key => if (s.objects r).any (fun o => o.reader.InRange key) then [r] else []
  | _ => []

/-! ## One object changes -/

variable {s : Fds} {m r : ℕ} {o : Object} {uses : List ℕ}

@[simp] theorem objects_set_self (r : ℕ) (o : Option Object) (s : Fds) :
    (s.set r o).objects r = o := Function.update_self ..

theorem objects_set_ne {r r' : ℕ} (h : r' ≠ r) (o : Option Object) (s : Fds) :
    (s.set r o).objects r' = s.objects r' := Function.update_of_ne h ..

theorem opened_set_self (r : ℕ) (o : Option Object) (s : Fds) :
    (s.set r o).opened r = o.any (·.reader.fileOpen) := by
  rw [opened, objects_set_self]

theorem opened_set_ne {r r' : ℕ} (h : r' ≠ r) (o : Option Object) (s : Fds) :
    (s.set r o).opened r' = s.opened r' := by
  rw [opened, objects_set_ne h, opened]

/-- Openness as recorded in the readers is openness as recorded in the list. -/
structure Sound (m : ℕ) (uses : List ℕ) (s : Fds) : Prop where
  opened_iff : ∀ r, s.opened r = true ↔ r ∈ s.lru
  pooled : ∀ r o, s.objects r = some o → o.reader.fileOpen = true → o.pooled = true
  ordered : Ordered uses s.lru
  length_le : s.lru.length ≤ s.maxOpen
  maxOpen_eq : s.maxOpen = max 1 m

theorem Sound.start (m : ℕ) (cache : BlockCache) : Sound m [] (start m cache) := by
  refine ⟨fun r => iff_of_false Bool.false_ne_true List.not_mem_nil, nofun, .nil _,
    Nat.zero_le _, ?_⟩
  rw [Fds.start]
  dsimp only
  split <;> omega

theorem Sound.pos (h : Sound m uses s) : 0 < s.maxOpen := by
  have := h.maxOpen_eq
  omega

/-- An object is made or changed, and its file is as open as before. -/
theorem Sound.set (h : Sound m uses s) {o : Option Object}
    (hopen : o.any (·.reader.fileOpen) = s.opened r)
    (hpooled : ∀ a ∈ o, a.reader.fileOpen = true → a.pooled = true) :
    Sound m uses (s.set r o) := by
  refine ⟨fun r' => ?_, fun r' a ha => ?_, h.ordered, h.length_le, h.maxOpen_eq⟩
  · by_cases hr : r' = r
    · subst hr
      rw [opened_set_self, hopen]
      exact h.opened_iff r'
    · rw [opened_set_ne hr]
      exact h.opened_iff r'
  · by_cases hr : r' = r
    · subst hr
      rw [objects_set_self] at ha
      exact hpooled a ha
    · rw [objects_set_ne hr] at ha
      exact h.pooled r' a ha

theorem Sound.cache (h : Sound m uses s) (cache : BlockCache) :
    Sound m uses { s with cache := cache } :=
  ⟨h.opened_iff, h.pooled, h.ordered, h.length_le, h.maxOpen_eq⟩

theorem Sound.modifyReader (h : Sound m uses s) (r : ℕ) {f : TableReader → TableReader}
    (hf : ∀ x, (f x).fileOpen = x.fileOpen) : Sound m uses (s.modifyReader r f) := by
  refine h.set ?_ (fun a ha hopen => ?_)
  · rw [opened]
    rcases s.objects r with _ | o
    · rfl
    · exact hf o.reader
  · obtain ⟨o, ho, rfl⟩ := Option.map_eq_some_iff.mp ha
    exact h.pooled r o ho ((hf o.reader).symm.trans hopen)

/-! ## ensure_open -/

/-- The victims are closed when the reader that is being opened is not among them. -/
theorem closeVictims_eq {locked : ℕ} {vs : List ℕ} (hvs : locked ∉ vs) (s : Fds) :
    closeVictims locked vs s = { s with
      objects := fun r => if r ∈ vs
        then (s.objects r).map (fun o => { o with reader := o.reader.closeFile })
        else s.objects r } := by
  induction vs generalizing s with
  | nil => simp [closeVictims]
  | cons v vs ih =>
    obtain ⟨hv, hvs⟩ := not_or.mp (fun hmem => hvs (List.mem_cons.mpr hmem))
    rw [closeVictims, tryCloseFile, if_neg (Ne.symm hv)]
    dsimp only
    rw [ih hvs, set]
    congr 1
    funext r
    by_cases hr : r = v
    · subst hr
      rcases s.objects r with _ | o
      · simp
      · simp [Sst.TableReader.closeFile]
    · simp [hr]

theorem onOpen_eq (hnot : r ∉ s.victims r) :
    s.onOpen r = { s with
      lru := (r :: s.lru).take s.maxOpen
      objects := fun r' => if r' ∈ s.victims r
        then (s.objects r').map (fun o => { o with reader := o.reader.closeFile })
        else s.objects r' } := closeVictims_eq hnot _

theorem opened_onOpen (hnot : r ∉ s.victims r) (r' : ℕ) :
    (s.onOpen r).opened r' = true ↔ s.opened r' = true ∧ r' ∉ s.victims r := by
  rw [onOpen_eq hnot, opened, opened]
  dsimp only
  by_cases hr : r' ∈ s.victims r
  · rw [if_pos hr]
    rcases s.objects r' with _ | o
    · simp
    · simp [hr, Sst.TableReader.closeFile]
  · simp [hr]

theorem onOpen_cache (r : ℕ) (s : Fds) : (s.onOpen r).cache = s.cache := by
  have hclose : ∀ vs (s : Fds), (closeVictims r vs s).cache = s.cache := by
    intro vs
    induction vs with
    | nil => exact fun _ => rfl
    | cons v vs ih =>
      intro s
      rw [closeVictims, tryCloseFile]
      split <;> rename_i heq <;> split at heq <;> cases heq <;> exact ih _
  exact hclose _ _

theorem ensureOpen_cache (r : ℕ) (s : Fds) : (s.ensureOpen r).1.cache = s.cache := by
  rw [Fds.ensureOpen]
  split
  · rfl
  split
  · rfl
  split
  · rfl
  dsimp only
  split
  · exact onOpen_cache r _
  split <;> exact onOpen_cache r _

theorem Sound.notMem_of_closed (h : Sound m uses s) (hclosed : s.opened r = false) : r ∉ s.lru :=
  fun hr => by simp [(h.opened_iff r).mpr hr] at hclosed

/-- The front of the list stays, so the reader that is being opened is no victim. -/
theorem Sound.notMem_victims (h : Sound m uses s) (hclosed : s.opened r = false) :
    r ∉ s.victims r := by
  obtain ⟨n, hn⟩ := Nat.exists_eq_succ_of_ne_zero h.pos.ne'
  rw [victims, hn, Nat.succ_eq_add_one, List.drop_succ_cons, List.mem_reverse]
  exact fun hr => h.notMem_of_closed hclosed (List.mem_of_mem_drop hr)

theorem Sound.touch (h : Sound m uses s) (hr : r ∈ s.lru) :
    Sound m (r :: uses) { s with lru := FdPool.Pool.touch r s.lru } := by
  have hperm : (r :: s.lru.erase r).Perm s.lru := (List.perm_cons_erase hr).symm
  rw [FdPool.Pool.touch, if_pos hr]
  refine ⟨fun r' => (h.opened_iff r').trans hperm.mem_iff.symm, h.pooled, h.ordered.use r, ?_,
    h.maxOpen_eq⟩
  exact hperm.length_eq.trans_le h.length_le

/-- `on_open` of a reader whose file has just been opened. -/
theorem Sound.onOpen (h : Sound m uses s) (hclosed : s.opened r = false) {x : TableReader}
    (hx : x.fileOpen = true) :
    Sound m (r :: uses) ((s.set r (some ⟨x, true⟩)).onOpen r) ∧
      ((s.set r (some ⟨x, true⟩)).onOpen r).objects r = some ⟨x, true⟩ := by
  have hnot : r ∉ (s.set r (some ⟨x, true⟩)).victims r := h.notMem_victims hclosed
  have hlru := h.notMem_of_closed hclosed
  obtain ⟨n, hn⟩ := Nat.exists_eq_succ_of_ne_zero h.pos.ne'
  have hself : ((s.set r (some ⟨x, true⟩)).onOpen r).objects r = some ⟨x, true⟩ := by
    rw [onOpen_eq hnot]
    exact (if_neg hnot).trans (objects_set_self ..)
  refine ⟨⟨fun r' => ?_, fun r' a ha hopen => ?_, ?_, ?_, ?_⟩, hself⟩
  · rw [opened_onOpen hnot, onOpen_eq hnot]
    change _ ↔ r' ∈ (r :: s.lru).take s.maxOpen
    have hvictims : r' ∈ (s.set r (some ⟨x, true⟩)).victims r ↔ r' ∈ s.lru.drop n := by
      change r' ∈ ((r :: s.lru).drop s.maxOpen).reverse ↔ _
      rw [hn, Nat.succ_eq_add_one, List.drop_succ_cons, List.mem_reverse]
    rw [hvictims, hn, Nat.succ_eq_add_one, List.take_succ_cons, List.mem_cons]
    by_cases hr : r' = r
    · subst hr
      rw [opened_set_self]
      exact iff_of_true ⟨hx, fun hmem => hlru (List.mem_of_mem_drop hmem)⟩ (.inl rfl)
    · rw [opened_set_ne hr, h.opened_iff r']
      have hsplit : r' ∈ s.lru ↔ r' ∈ s.lru.take n ∨ r' ∈ s.lru.drop n := by
        rw [← List.mem_append, List.take_append_drop]
      have hdisjoint : r' ∈ s.lru.take n → r' ∉ s.lru.drop n := fun htake hdrop =>
        List.disjoint_take_drop h.ordered.nodup le_rfl htake hdrop
      tauto
  · by_cases hr : r' = r
    · subst hr
      exact Option.some.inj (hself.symm.trans ha) ▸ rfl
    · have hany : ((s.set r (some ⟨x, true⟩)).onOpen r).opened r' = true := by
        rw [opened, ha]
        exact hopen
      have hkept := ((opened_onOpen hnot r').mp hany).2
      rw [onOpen_eq hnot] at ha
      have ha' := (if_neg hkept).symm.trans ha
      rw [objects_set_ne hr] at ha'
      exact h.pooled r' a ha' hopen
  · have huse := h.ordered.use r
    rw [List.erase_of_not_mem hlru] at huse
    rw [onOpen_eq hnot]
    exact huse.sublist (List.take_sublist _ _)
  · rw [onOpen_eq hnot]
    exact List.length_take_le _ _
  · rw [onOpen_eq hnot]
    exact h.maxOpen_eq

/-- `ensure_open` does to the reader and answers as if it were alone, and the budget holds. -/
theorem Sound.ensureOpen (h : Sound m uses s) (ho : s.objects r = some o) :
    Sound m (r :: uses) (s.ensureOpen r).1 ∧
      (s.ensureOpen r).1.objects r = some ⟨o.reader.ensureOpen.1, true⟩ ∧
      (s.ensureOpen r).2 = o.reader.ensureOpen.2 := by
  have hopened : s.opened r = o.reader.fileOpen := by
    rw [opened, ho]
    rfl
  rw [Fds.ensureOpen, ho]
  dsimp only
  by_cases hopen : o.reader.fileOpen = true
  · rw [if_pos hopen, Sst.TableReader.ensureOpen, if_pos hopen]
    have hset : Sound m uses (s.set r (some ⟨o.reader, true⟩)) :=
      h.set hopened.symm (fun a ha _ => Option.some.inj ha ▸ rfl)
    exact ⟨hset.touch ((h.opened_iff r).mp (hopened.trans hopen)), objects_set_self .., rfl⟩
  · have hclosed : s.opened r = false := by rw [hopened, Bool.eq_false_of_not_eq_true hopen]
    rw [if_neg hopen]
    rcases hfile : o.reader.file with _ | file
    · have hset : Sound m uses (s.set r (some ⟨o.reader, true⟩)) :=
        h.set hopened.symm (fun a ha _ => Option.some.inj ha ▸ rfl)
      rw [Sst.TableReader.ensureOpen, if_neg hopen, hfile]
      exact ⟨⟨hset.opened_iff, hset.pooled, h.ordered.other (h.notMem_of_closed hclosed),
        h.length_le, h.maxOpen_eq⟩, objects_set_self .., rfl⟩
    · obtain ⟨hsound, hself⟩ := h.onOpen hclosed (x := o.reader.openFile) rfl
      have hopen' := Sst.TableReader.loadFooter_fileOpen file o.reader.openFile
      rw [Sst.TableReader.ensureOpen_of_closed hopen hfile]
      dsimp only
      by_cases hloaded : o.reader.footerLoaded = true
      · rw [if_pos hloaded, if_pos hloaded]
        exact ⟨hsound, hself, rfl⟩
      · rw [if_neg hloaded, if_neg hloaded]
        have hkept : ∀ x : TableReader, x.fileOpen = true → Sound m (r :: uses)
            (((s.set r (some ⟨o.reader.openFile, true⟩)).onOpen r).set r (some ⟨x, true⟩)) := by
          intro x hx
          refine hsound.set ?_ (fun a ha _ => Option.some.inj ha ▸ rfl)
          rw [opened, hself]
          exact hx
        rcases hload : Sst.TableReader.loadFooter file o.reader.openFile with ⟨x, e | u⟩
        · rw [hload] at hopen'
          exact ⟨hkept x hopen', objects_set_self .., rfl⟩
        · rw [hload] at hopen'
          exact ⟨hkept x hopen', objects_set_self .., rfl⟩

/-! ## The other steps -/

theorem Sound.get (h : Sound m uses s) (r : ℕ) (key : Bytes) :
    Sound m (s.use (.get r key) ++ uses) (s.get r key).1 := by
  rw [Fds.get, use]
  rcases ho : s.objects r with _ | o
  · exact h
  dsimp only [Option.any_some]
  by_cases hrange : o.reader.InRange key
  · rw [if_pos hrange, if_pos (decide_eq_true hrange)]
    obtain ⟨hsound, hself, -⟩ := h.ensureOpen ho
    rcases hens : s.ensureOpen r with ⟨s', e | file⟩
    · rw [hens] at hsound
      exact hsound
    · rw [hens] at hsound hself
      dsimp only at hsound hself ⊢
      rw [hself]
      have hsame := Sst.sameFooter_searchBloom file key ⟨o.reader.ensureOpen.1, s'.cache, {}, {}⟩
      refine Sound.cache (hsound.set ?_ (fun a ha _ => Option.some.inj ha ▸ rfl)) _
      rw [opened, hself]
      exact hsame.fileOpen
  · rw [if_neg hrange, if_neg (by simpa using hrange)]
    exact h

theorem Sound.lru_ensureOpen (h : Sound m uses s) (ho : s.objects r = some o)
    (hopens : o.reader.fileOpen = true ∨ o.reader.file.isSome = true) :
    (s.ensureOpen r).1.lru = (r :: s.lru.erase r).take s.maxOpen := by
  have hopened : s.opened r = o.reader.fileOpen := by
    rw [opened, ho]
    rfl
  rw [Fds.ensureOpen, ho]
  dsimp only
  by_cases hopen : o.reader.fileOpen = true
  · have hr : r ∈ s.lru := (h.opened_iff r).mp (hopened.trans hopen)
    have hlength : (r :: s.lru.erase r).length ≤ s.maxOpen :=
      (List.perm_cons_erase hr).length_eq.symm.trans_le h.length_le
    rw [if_pos hopen, List.take_of_length_le hlength]
    exact if_pos hr
  · have hclosed : s.opened r = false := by rw [hopened, Bool.eq_false_of_not_eq_true hopen]
    have hnot : r ∉ (s.set r (some ⟨o.reader.openFile, true⟩)).victims r :=
      h.notMem_victims hclosed
    obtain ⟨file, hfile⟩ := Option.isSome_iff_exists.mp (hopens.resolve_left hopen)
    have honOpen : ((s.set r (some ⟨o.reader.openFile, true⟩)).onOpen r).lru =
        (r :: s.lru.erase r).take s.maxOpen := by
      rw [onOpen_eq hnot, List.erase_of_not_mem (h.notMem_of_closed hclosed)]
      rfl
    rw [if_neg hopen, hfile]
    dsimp only
    split
    · exact honOpen
    · split <;> exact honOpen

/-- A lookup that gets the reader's file open leaves the reader at the front of the list. -/
theorem Sound.lru_get (h : Sound m uses s) (ho : s.objects r = some o)
    (hopens : o.reader.fileOpen = true ∨ o.reader.file.isSome = true) {key : Bytes}
    (hrange : o.reader.InRange key) :
    (s.get r key).1.lru = (r :: s.lru.erase r).take s.maxOpen := by
  rw [Fds.get, ho]
  dsimp only
  rw [if_pos hrange, ← h.lru_ensureOpen ho hopens]
  rcases s.ensureOpen r with ⟨s', e | file⟩
  · rfl
  · dsimp only
    split <;> rfl

/-- Where the list is full, opening another file closes the one at its end. -/
theorem Sound.get_closes_last (h : Sound m uses s) (ho : s.objects r = some o)
    (hclosed : o.reader.fileOpen = false) (hfile : o.reader.file.isSome = true) {key : Bytes}
    (hrange : o.reader.InRange key) (hfull : s.lru.length = s.maxOpen) :
    ∃ kept last, s.lru = kept ++ [last] ∧ (s.get r key).1.lru = r :: kept ∧
      (s.get r key).1.opened last = false := by
  have hnot : r ∉ s.lru := by
    refine h.notMem_of_closed ?_
    rw [opened, ho]
    exact hclosed
  have hpos := h.pos
  have hne : s.lru ≠ [] := by
    intro hnil
    rw [hnil, List.length_nil] at hfull
    omega
  obtain ⟨kept, last, hlru⟩ := (List.eq_nil_or_concat' s.lru).resolve_left hne
  have hget : (s.get r key).1.lru = r :: kept := by
    have hlength : s.maxOpen = (r :: kept).length := by simp [← hfull, hlru]
    rw [h.lru_get ho (.inr hfile) hrange, List.erase_of_not_mem hnot, hlru, hlength,
      ← List.cons_append, List.take_left]
  refine ⟨kept, last, hlru, hget, Bool.eq_false_iff.mpr (fun hopen => ?_)⟩
  have hmem := ((h.get r key).opened_iff last).mp hopen
  rw [hget] at hmem
  rw [hlru] at hnot
  rcases List.mem_cons.mp hmem with rfl | hmem
  · exact hnot (List.mem_append_right _ List.mem_cons_self)
  · have hnodup := h.ordered.nodup
    rw [hlru] at hnodup
    exact List.disjoint_of_nodup_append hnodup hmem List.mem_cons_self

/-- A lookup answers as if the reader were alone with the cache. -/
theorem Sound.get_answer (h : Sound m uses s) (ho : s.objects r = some o) (key : Bytes) :
    (s.get r key).2 = (ReadContext.get key ⟨o.reader, s.cache, {}, {}⟩).2 := by
  obtain ⟨-, hself, hresult⟩ := h.ensureOpen ho
  have hcache := ensureOpen_cache r s
  rw [Fds.get, ho, ReadContext.get]
  by_cases hrange : o.reader.InRange key
  · dsimp only
    rw [if_pos hrange, if_neg hrange]
    rcases hens : s.ensureOpen r with ⟨s', e | file⟩
    · rw [hens] at hresult
      rcases halone : o.reader.ensureOpen with ⟨x, result⟩
      rw [halone] at hresult
      obtain rfl : .error e = result := hresult
      rfl
    · rw [hens] at hresult hself hcache
      rcases halone : o.reader.ensureOpen with ⟨x, result⟩
      rw [halone] at hresult hself
      obtain rfl : .ok file = result := hresult
      dsimp only at hself hcache ⊢
      rw [hself, hcache]
  · dsimp only
    rw [if_neg hrange, if_pos (not_not.mp hrange)]

theorem Sound.destroy (h : Sound m uses s) (r : ℕ) : Sound m uses (s.destroy r) := by
  rw [Fds.destroy]
  rcases ho : s.objects r with _ | o
  · exact h
  have hlru : (if o.pooled then s.lru.filter (· ≠ r) else s.lru) = s.lru.filter (· ≠ r) := by
    split
    · rfl
    · rename_i hpooled
      refine (List.filter_eq_self.mpr (fun r' hr' => ?_)).symm
      refine decide_eq_true (fun heq => hpooled (h.pooled r o ho ?_))
      have hopen := (h.opened_iff r').mpr hr'
      rwa [heq, opened, ho] at hopen
  dsimp only
  rw [hlru]
  refine ⟨fun r' => ?_, fun r' a ha => ?_, h.ordered.sublist List.filter_sublist,
    (List.length_filter_le _ _).trans h.length_le, h.maxOpen_eq⟩
  · change (s.set r none).opened r' = true ↔ r' ∈ s.lru.filter (· ≠ r)
    by_cases hr : r' = r
    · subst hr
      simp [opened_set_self]
    · rw [opened_set_ne hr, h.opened_iff]
      simp [hr]
  · change (s.set r none).objects r' = some a at ha
    by_cases hr : r' = r
    · subst hr
      simp at ha
    · rw [objects_set_ne hr] at ha
      exact h.pooled r' a ha

theorem Sound.step (h : Sound m uses s) (a : Action) : Sound m (s.use a ++ uses) (s.step a) := by
  cases a with
  | construct r file info cache_index_blocks =>
    rw [Fds.step]
    split
    · exact h
    · rename_i hnew
      refine h.set ?_ (fun a ha hopen => ?_)
      · rw [opened, Option.not_isSome_iff_eq_none.mp hnew]
        rfl
      · obtain rfl := Option.some.inj ha
        cases hopen
  | disk r file => exact h.modifyReader r (f := fun x => { x with file := file }) (fun _ => rfl)
  | validateFooter r => exact h.modifyReader r Sst.TableReader.checkFooter_fileOpen
  | get r key => exact h.get r key
  | destroy r => exact h.destroy r

/-- The state after some actions, with the uses, the latest first. -/
def run (max_open : ℕ) (cache : BlockCache) (actions : List Action) : Fds × List ℕ :=
  actions.foldl (fun p a => (p.1.step a, p.1.use a ++ p.2)) (start max_open cache, [])

theorem run_sound (max_open : ℕ) (cache : BlockCache) (actions : List Action) :
    Sound max_open (run max_open cache actions).2 (run max_open cache actions).1 := by
  induction actions using List.reverseRecOn with
  | nil => exact .start max_open cache
  | append_singleton actions a ih =>
    rw [run, List.foldl_append]
    exact ih.step a

/-- After any calls the readers with an open file are those listed, once each and in order of
last use, no more than the budget allows; and a reader that is not open is no victim of its own
`on_open`. -/
theorem fd_budget (max_open : ℕ) (cache : BlockCache) (actions : List Action) :
    let s := (run max_open cache actions).1
    (∀ r, s.opened r = true ↔ r ∈ s.lru) ∧ s.lru.Nodup ∧ s.lru.length ≤ max 1 max_open ∧
    Ordered (run max_open cache actions).2 s.lru ∧
    ∀ r, s.opened r = false → r ∉ s.victims r := by
  intro s
  have h := run_sound max_open cache actions
  exact ⟨h.opened_iff, h.ordered.nodup, h.maxOpen_eq ▸ h.length_le, h.ordered,
    fun r => h.notMem_victims⟩

end Fds
end FdBudget
end LsmKv
