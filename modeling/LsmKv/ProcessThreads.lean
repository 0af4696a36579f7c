import LsmKv.ProcessPublish
import LsmKv.SnapshotReads
import LsmKv.TableImages

/-!
# The threads behind a process

A process over the bytes of its files keeps step with the threads over rows: the same memtables
and snapshots, each reader in the place of its table, each file in the place of its rows. What
an abandoned output or a closed descriptor does, the threads do not see.
-/

namespace LsmKv
open Sst (TableMeta TableReader BlockCache Fault Images Bounds)
open OrderedMap

/-- The mutations a process applied, for each get in flight how many there were when it started,
and for each answer how many there were at its start and at its end. -/
structure Timed where
  process : Process
  applied : List Record := []
  starts : List ℕ := []
  spans : List (ℕ × ℕ) := []

def Timed.goTo (o : Timed) (p : Process) : Timed := { o with process := p }

/-- What is recorded of a step. -/
def Timed.note (a : Act) (o : Timed) (p : Process) : Timed :=
  match a with
  | .apply r => { o with process := p, applied := o.applied ++ [r] }
  | .load _ => { o with process := p, starts := o.starts ++ [o.applied.length] }
  | .consult i =>
    if p.gets.length < o.process.gets.length then { o with
      process := p
      starts := o.starts.eraseIdx i
      spans := o.spans ++ o.starts[i]?.toList.map (fun since => (since, o.applied.length)) }
    else o.goTo p
  | _ => o.goTo p

def Timed.step (o : Timed) (a : Act) : Option Timed := (o.process.step true a).map (o.note a)

namespace Process

/-! ## Readers and their tables -/

/-- The readers are those of the tables, one by one. -/
def Serves (infos : ℕ → Option TableMeta) : List ℕ → List TableMeta → Prop :=
  List.Forall₂ (fun i t => infos i = some t)

section
variable {infos infos' : ℕ → Option TableMeta} {is : List ℕ} {ts : List TableMeta} {i : ℕ}
  {t : TableMeta}

/-- Readers keep their tables. -/
theorem Serves.mono (h : Serves infos is ts)
    (hkeep : ∀ i info, infos i = some info → infos' i = some info) : Serves infos' is ts :=
  List.Forall₂.imp (fun i t => hkeep i t) h

theorem Serves.filter (h : Serves infos is ts) (q : TableMeta → Bool) :
    Serves infos (is.filter (fun i => (infos i).any q)) (ts.filter q) := by
  refine List.rel_filter (fun i t hi => ?_) h
  show (infos i).any q = true ↔ q t = true
  rw [show infos i = some t from hi, Option.any_some]

/-- Where no two readers have one table id, a reader is in the list if its table's id is. -/
theorem Serves.any_id (h : Serves infos is ts)
    (hinj : ∀ i j a b, infos i = some a → infos j = some b → a.id = b.id → i = j)
    (hi : infos i = some t) : decide (i ∈ is) = ts.any (fun t' => t'.id = t.id) := by
  induction h with
  | nil => rfl
  | @cons j t' is ts hj _ ih =>
    have hsame : (i = j) ↔ t'.id = t.id := by
      constructor
      · rintro rfl
        rw [Option.some.inj (hj.symm.trans hi)]
      · exact fun hid => hinj i j t t' hi hj hid.symm
    rw [List.any_cons, ← ih, ← Bool.decide_or]
    exact decide_eq_decide.mpr (List.mem_cons.trans (or_congr_left hsame))

end

/-! ## One state behind the other -/

/-- The file of an output is in place, with what its metadata says. -/
def Placed (p : Process) (info : TableMeta) : Prop :=
  ∃ file rows, p.files.find? info.id = some file ∧ Images file rows ∧ Bounds info rows

/-- The threads' creator stands where the process's does. -/
def Stands (p : Process) : Progress → Creator → Prop
  | .idle, c => c = .idle
  | .chosen live ids, c => c = .chosen live ids
  | .merged ids final, c => c = .merged ids final
  | .named job mem id, c => c = .named job mem id
  | .placed job added, c => c = .placed job added ∧ ∀ info ∈ added, p.Placed info
  | .deleting is, c => ∃ ts, c = .deleting ts ∧ Serves p.infoAt is ts
  | .unlinking i is, c => ∃ t ts, c = .unlinking t ts ∧ Serves p.infoAt (i :: is) (t :: ts)

def Looks (infos : ℕ → Option TableMeta) : Spot → Place → Prop
  | .active, place => place = .active
  | .immutables ms, place => place = .immutables ms
  | .tables is, place => ∃ ts, place = .tables ts ∧ Serves infos is ts

/-- One get is where the other is. -/
structure Follows (infos : ℕ → Option TableMeta) (g : Lookup) (g' : Get) : Prop where
  key : g'.key = g.key
  own : g'.own = g.own
  immutables : g'.version.immutables = g.snapshot.immutables
  tables : Serves infos g.snapshot.tables g'.version.tables
  spot : Looks infos g.spot g'.place

/-- The same key and the same value. -/
def SameAnswer (a : Bytes × Except Fault (Option Bytes)) (b : Answer) : Prop :=
  a.1 = b.key ∧ ∃ v, a.2 = .ok v ∧ b.result = .ok v

section
variable {infos infos' : ℕ → Option TableMeta} {p p' : Process}

theorem Looks.mono {spot : Spot} {place : Place} (h : Looks infos spot place)
    (hkeep : ∀ i info, infos i = some info → infos' i = some info) : Looks infos' spot place := by
  cases spot with
  | active => exact h
  | immutables ms => exact h
  | tables is =>
    obtain ⟨ts, rfl, hserves⟩ := h
    exact ⟨ts, rfl, hserves.mono hkeep⟩

theorem Follows.mono {g : Lookup} {g' : Get} (h : Follows infos g g')
    (hkeep : ∀ i info, infos i = some info → infos' i = some info) : Follows infos' g g' :=
  ⟨h.key, h.own, h.immutables, h.tables.mono hkeep, h.spot.mono hkeep⟩

theorem Stands.mono {progress : Progress} {c : Creator} (h : p.Stands progress c)
    (hkeep : ∀ i info, p.infoAt i = some info → p'.infoAt i = some info)
    (hfiles : p'.files = p.files) : p'.Stands progress c := by
  cases progress with
  | placed job added =>
    refine ⟨h.1, fun info hinfo => ?_⟩
    rw [Placed, hfiles]
    exact h.2 info hinfo
  | deleting is =>
    obtain ⟨ts, rfl, hserves⟩ := h
    exact ⟨ts, rfl, hserves.mono hkeep⟩
  | unlinking i is =>
    obtain ⟨t, ts, rfl, hserves⟩ := h
    exact ⟨t, ts, rfl, hserves.mono hkeep⟩
  | _ => exact h

/-- The log is not being cut back: that part of a flush is left out of the process. -/
theorem Stands.not_removing {progress : Progress} {c : Creator} (h : p.Stands progress c)
    (n : ℕ) (ids : List ℕ) : c ≠ .removing n ids := by
  rintro rfl
  cases progress with
  | placed job added => cases h.1
  | deleting is =>
    obtain ⟨ts, hc, -⟩ := h
    cases hc
  | unlinking i is =>
    obtain ⟨t, ts, hc, -⟩ := h
    cases hc
  | _ => cases h

end

end Process

/-- The state of the threads behind that of a process. -/
structure Shadows (o : Timed) (s : Threads) : Prop where
  config : s.engine.config = o.process.config
  manifest : s.engine.manifest = o.process.manifest
  active : s.engine.active = o.process.active
  immutables : s.engine.immutables = o.process.immutables
  readers : Process.Serves o.process.infoAt o.process.readers s.engine.readers
  frozen : s.engine.version.immutables = o.process.version.immutables
  tables : Process.Serves o.process.infoAt o.process.version.tables s.engine.version.tables
  files : ∀ id, Option.Rel Images (o.process.files.find? id) (s.engine.files.find? id)
  published : ∀ u ∈ o.process.published, ∃ rows, Images u.file rows ∧ Bounds u.info rows
  writer : s.writer = .idle
  creator : o.process.Stands o.process.creator s.creator
  gets : List.Forall₂ (Process.Follows o.process.infoAt) o.process.gets s.gets
  applied : s.applied = o.applied
  starts : s.gets.map (·.since) = o.starts
  answers : List.Forall₂ Process.SameAnswer o.process.answers s.answers
  spans : s.answers.map (fun a => (a.since, a.upto)) = o.spans

/-! ## Steps of a flush or a compaction -/

section
variable {o : Timed} {s : Threads} {p' : Process}

theorem Shadows.turn (h : Shadows o s) {progress : Progress} {c : Creator}
    (hc : o.process.Stands progress c) :
    Shadows (o.goTo { o.process with creator := progress }) { s with creator := c } :=
  { h with creator := hc }

theorem Shadows.flush (h : Shadows o s) (hstep : o.process.flush = some p') :
    ∃ s', s.flush = some s' ∧ Shadows (o.goTo p') s' := by
  have hcreator := h.creator
  rw [Process.flush] at hstep
  split at hstep
  · rename_i hidle
    rw [hidle] at hcreator
    have hidle' : s.creator = .idle := hcreator
    rcases htarget : o.process.immutables.getLast? with _ | target <;> rw [htarget] at hstep
    · obtain rfl := Option.some.inj hstep
      refine ⟨s, ?_, h⟩
      rw [Threads.flush, hidle']
      dsimp only
      rw [h.immutables, htarget]
    · obtain rfl := Option.some.inj hstep
      refine ⟨{ s with creator := .named .flush target s.engine.manifest.nextSstId }, ?_,
        h.turn (by rw [← h.manifest]; rfl)⟩
      rw [Threads.flush, hidle']
      dsimp only
      rw [h.immutables, htarget]
  · cases hstep

theorem Shadows.chooseInputs (h : Shadows o s) (inputs : Option (List ℕ)) :
    (s.engine.chooseInputs inputs).toOption.join = o.process.chooseInputs inputs := by
  cases inputs with
  | none =>
    rw [Engine.chooseInputs, Process.chooseInputs, h.manifest, h.config]
    rfl
  | some ids =>
    rw [Engine.chooseInputs, Process.chooseInputs, h.manifest]
    cases Compaction.explicitInputs o.process.manifest.tables ids <;> rfl

theorem Shadows.compact (h : Shadows o s) (hopen : s.engine.closed = false)
    {inputs : Option (List ℕ)} (hstep : o.process.compact inputs = some p') :
    ∃ s', s.compact inputs = some s' ∧ Shadows (o.goTo p') s' := by
  have hcreator := h.creator
  have hchoose := h.chooseInputs inputs
  have hensure : s.engine.ensureOpen = .ok () := by
    rw [Engine.ensureOpen, hopen]
    rfl
  rw [Process.compact] at hstep
  split at hstep
  · rename_i hidle
    rw [hidle] at hcreator
    rw [Threads.compact, show s.creator = .idle from hcreator]
    dsimp only
    rw [hensure]
    dsimp only
    rw [← hchoose] at hstep
    rcases hinputs : s.engine.chooseInputs inputs with x | _ | ids <;> rw [hinputs] at hstep
    · obtain rfl := Option.some.inj hstep
      exact ⟨s, rfl, h⟩
    · obtain rfl := Option.some.inj hstep
      exact ⟨s, rfl, h⟩
    · obtain rfl := Option.some.inj hstep
      exact ⟨_, rfl, h.turn (by rw [← h.manifest]; rfl)⟩
  · cases hstep

theorem scanAll_eq {files : OrderedMap ℕ Bytes} {rowFiles : OrderedMap ℕ Rows}
    (hfiles : ∀ id, Option.Rel Images (files.find? id) (rowFiles.find? id))
    {ts : List TableMeta} {rows : List Rows} (h : Engine.scanTables rowFiles ts = .ok rows) :
    Process.scanAll files ts = .ok (rows.map (·.entries)) := by
  induction ts generalizing rows with
  | nil =>
    obtain rfl := Except.ok.inj h
    rfl
  | cons t ts ih =>
    rw [Engine.scanTables] at h
    have hfile := hfiles t.id
    rcases hrows : rowFiles.find? t.id with _ | first <;> rw [hrows] at h hfile
    · cases h
    rcases hrest : Engine.scanTables rowFiles ts with x | rest <;> rw [hrest] at h
    · cases h
    obtain rfl := Except.ok.inj h
    rcases hbytes : files.find? t.id with _ | file <;> rw [hbytes] at hfile
    · cases hfile
    obtain himage := Option.rel_some_some.mp hfile
    rw [Process.scanAll, hbytes, himage.scan]
    dsimp only
    rw [ih hrest]
    rfl

theorem mergeRows_eq (overhead : ℕ) (rows : List Rows) :
    Process.mergeRows overhead (rows.map (·.entries)) = Memtable.merged overhead rows := by
  rw [Process.mergeRows, Memtable.merged, ← List.map_reverse, List.foldl_map]

theorem Shadows.mergeInputs (h : Shadows o s) {ids : List ℕ} {now : ℕ}
    {final merged : Memtable} {n : ℕ}
    (hmerge : s.engine.mergeInputs ids now = .ok (final, merged, n)) :
    o.process.mergeInputs s.engine.manifest.tables ids now = .ok final := by
  rw [Engine.mergeInputs] at hmerge
  split at hmerge
  · cases hmerge
  · rename_i rows hscan
    obtain ⟨rfl, -⟩ := Prod.mk.inj (Except.ok.inj hmerge)
    have hall : Process.scanAll o.process.files (ids.filterMap
        (fun id => s.engine.manifest.tables.find? (fun t => t.id = id))) = .ok _ :=
      scanAll_eq h.files hscan
    rw [Process.mergeInputs]
    dsimp only
    rw [hall]
    dsimp only
    rw [mergeRows_eq, Engine.drops, h.config]
    rfl

theorem Shadows.merge (h : Shadows o s) {config : Config} {ok : Bytes → Bytes → Prop}
    {B : List Record} {ps : List (List Record)} {q : List Record} {D : List LiveTable}
    {l : Wal Record} (hsound : Threads.Sound config ok s B ps q D l)
    (hindexed : s.engine.misindexed = []) {now : ℕ} (hstep : o.process.merge now = some p') :
    ∃ s', s.merge now = some s' ∧ Shadows (o.goTo p') s' := by
  have hcreator := h.creator
  have hc := hsound.creator
  rw [Process.merge] at hstep
  split at hstep
  · rename_i live ids hchosen
    rw [hchosen] at hcreator
    have hcreator : s.creator = .chosen live ids := hcreator
    rw [hcreator] at hc
    obtain ⟨rfl, front, inputs, back, hsel⟩ := hc
    obtain ⟨final, merged, n, hmerge, -⟩ := hsound.stored.holds.mergeInputs hsel now
    have hsnapshot : (Threads.snapshot s.engine.manifest.tables s.engine).scanInputs ids now =
        .ok (final, merged, n) := (scanInputs_nil hindexed ids now).trans hmerge
    rw [h.mergeInputs hmerge] at hstep
    rw [Threads.merge, hcreator]
    dsimp only at hstep ⊢
    rw [hsnapshot]
    dsimp only
    split at hstep
    · rename_i hempty
      obtain rfl := Option.some.inj hstep
      rw [if_pos hempty]
      exact ⟨_, rfl, h.turn ⟨rfl, by simp⟩⟩
    · rename_i hrows
      obtain rfl := Option.some.inj hstep
      rw [if_neg hrows]
      exact ⟨_, rfl, h.turn rfl⟩
  · cases hstep

theorem Shadows.name (h : Shadows o s) (hstep : o.process.name = some p') :
    ∃ s', s.name = some s' ∧ Shadows (o.goTo p') s' := by
  have hcreator := h.creator
  rw [Process.name] at hstep
  split at hstep
  · rename_i ids final hmerged
    rw [hmerged] at hcreator
    obtain rfl := Option.some.inj hstep
    rw [Threads.name, show s.creator = .merged ids final from hcreator]
    exact ⟨_, rfl, h.turn (by rw [← h.manifest]; rfl)⟩
  · cases hstep

theorem Shadows.referenced (h : Shadows o s) (hp : o.process.Sound) {i : ℕ} {t : TableMeta}
    (hi : o.process.infoAt i = some t) : o.process.referenced i = s.referenced t := by
  have hinj : ∀ i j a b, o.process.infoAt i = some a → o.process.infoAt j = some b →
      a.id = b.id → i = j := fun _ _ _ _ => hp.eq_of_infoAt
  rw [Process.referenced, Threads.referenced, List.any_cons, List.any_cons, List.any_map,
    List.any_map, h.tables.any_id hinj hi]
  refine congrArg _ (forall₂_any h.gets fun g g' hg => ?_)
  exact hg.tables.any_id hinj hi

theorem Shadows.nextInput (h : Shadows o s) (hp : o.process.Sound)
    (hstep : o.process.nextInput = some p') :
    ∃ s', s.nextInput = some s' ∧ Shadows (o.goTo p') s' := by
  have hcreator := h.creator
  rw [Process.nextInput] at hstep
  split at hstep
  · rename_i hdeleting
    rw [hdeleting] at hcreator
    obtain ⟨ts, hts, hserves⟩ := hcreator
    obtain rfl := List.forall₂_nil_left_iff.mp hserves
    obtain rfl := Option.some.inj hstep
    rw [Threads.nextInput, hts]
    exact ⟨_, rfl, h.turn rfl⟩
  · rename_i i is hdeleting
    rw [hdeleting] at hcreator
    obtain ⟨ts, hts, hserves⟩ := hcreator
    obtain ⟨t, ts, hi, hrest, rfl⟩ := List.forall₂_cons_left_iff.mp hserves
    rw [Threads.nextInput, hts]
    dsimp only
    rw [← h.referenced hp hi]
    split at hstep
    · rename_i hheld
      obtain rfl := Option.some.inj hstep
      rw [if_pos hheld]
      exact ⟨_, rfl, h.turn ⟨ts, rfl, hrest⟩⟩
    · rename_i hfree
      obtain rfl := Option.some.inj hstep
      rw [if_neg hfree]
      exact ⟨_, rfl, h.turn ⟨t, ts, rfl, .cons hi hrest⟩⟩
  · cases hstep

theorem rel_erase {files : OrderedMap ℕ Bytes} {rows : OrderedMap ℕ Rows}
    (h : ∀ id, Option.Rel Images (files.find? id) (rows.find? id)) (gone id : ℕ) :
    Option.Rel Images ((files.erase gone).find? id) ((rows.erase gone).find? id) := by
  rw [find?_erase, find?_erase]
  split
  · exact .none
  · exact h id

theorem rel_insert {files : OrderedMap ℕ Bytes} {rows : OrderedMap ℕ Rows}
    (h : ∀ id, Option.Rel Images (files.find? id) (rows.find? id)) {file : Bytes} {r : Rows}
    (hr : Images file r) (new id : ℕ) :
    Option.Rel Images ((files.insert new file).find? id) ((rows.insert new r).find? id) := by
  rw [find?_insert, find?_insert]
  split
  · exact .some hr
  · exact h id

theorem Shadows.unlink (h : Shadows o s) (hstep : o.process.unlink = some p') :
    ∃ s', s.unlink = some s' ∧ Shadows (o.goTo p') s' := by
  have hcreator := h.creator
  rw [Process.unlink] at hstep
  split at hstep
  · rename_i i is hunlinking
    rw [hunlinking] at hcreator
    obtain ⟨t, ts, hts, hserves⟩ := hcreator
    obtain ⟨hi, hrest⟩ := List.forall₂_cons.mp hserves
    obtain rfl := Option.some.inj hstep
    rw [Threads.unlink, hts, show o.process.infoAt i = some t from hi]
    exact ⟨_, rfl, { h with files := rel_erase h.files t.id, creator := ⟨ts, rfl, hrest⟩ }⟩
  · cases hstep

/-! ## Gets -/

theorem Shadows.refit (h : Shadows o s) {objects : List TableReader}
    (hinfos : objects.map (·.info) = o.process.objects.map (·.info)) (cache : BlockCache) :
    Shadows (o.goTo { o.process with objects := objects, cache := cache }) s := by
  have hkeep : ∀ i info, o.process.infoAt i = some info →
      Process.infoAt i { o.process with objects := objects, cache := cache } = some info :=
    fun i info hi => (Process.infoAt_of_map hinfos i).trans hi
  exact { h with
    readers := h.readers.mono hkeep
    tables := h.tables.mono hkeep
    creator := h.creator.mono hkeep rfl
    gets := h.gets.imp (fun _ _ hg => hg.mono hkeep) }

theorem Shadows.load (h : Shadows o s) (hopen : s.engine.closed = false) {key : Bytes}
    (hstep : o.process.load key = some p') :
    ∃ s', s.load key = some s' ∧ Shadows (o.note (.load key) p') s' := by
  have hensure : s.engine.ensureOpen = .ok () := by
    rw [Engine.ensureOpen, hopen]
    rfl
  rw [Process.load] at hstep
  rw [Threads.load, hensure]
  dsimp only
  split at hstep
  · cases hstep
  · rename_i hkey
    obtain rfl := Option.some.inj hstep
    rw [if_neg hkey]
    refine ⟨_, rfl, { h with gets := ?_, starts := ?_ }⟩
    · exact forall₂_append h.gets (.cons ⟨rfl, rfl, h.frozen, h.tables, rfl⟩ .nil)
    · show (s.gets ++ [_]).map Get.since = o.starts ++ [o.applied.length]
      rw [List.map_append, h.starts, ← h.applied]
      rfl

section
variable {i : ℕ} {g : Lookup} {g' : Get}

theorem Shadows.resume (h : Shadows o s) (hg' : s.gets[i]? = some g')
    (hg : Process.Follows o.process.infoAt g g') (spot : Spot) (place : Place)
    (hlooks : Process.Looks o.process.infoAt spot place) :
    Shadows (o.note (.consult i) (o.process.resume i g spot))
      { s with gets := s.gets.set i { g' with place := place } } := by
  have hsame : ¬(o.process.resume i g spot).gets.length < o.process.gets.length := by
    rw [Process.resume, List.length_set]
    exact lt_irrefl _
  have hnext : Process.Follows o.process.infoAt { g with spot := spot }
      { g' with place := place } := ⟨hg.key, hg.own, hg.immutables, hg.tables, hlooks⟩
  rw [Timed.note, if_neg hsame]
  refine { h with gets := forall₂_set h.gets hnext i, starts := ?_ }
  obtain ⟨hlt, hget⟩ := List.getElem?_eq_some_iff.mp hg'
  show (s.gets.set i _).map Get.since = o.starts
  rw [List.map_set, ← h.starts, ← hget]
  exact (congrArg _ (List.getElem_map _).symm).trans (List.set_getElem_self (by simpa using hlt))

theorem Shadows.answer (h : Shadows o s) (hi : o.process.gets[i]? = some g)
    (hg' : s.gets[i]? = some g') (hg : Process.Follows o.process.infoAt g g') (v : Option Bytes) :
    Shadows (o.note (.consult i) (o.process.answer i g (.ok v))) { s with
      gets := s.gets.eraseIdx i
      answers := s.answers ++ [⟨g'.key, g'.since, s.applied.length, .ok v⟩] } := by
  have hlt := (List.getElem?_eq_some_iff.mp hi).1
  have hless : (o.process.answer i g (.ok v)).gets.length < o.process.gets.length := by
    rw [Process.answer, List.length_eraseIdx_of_lt hlt]
    omega
  have hsince : o.starts[i]? = some g'.since := by
    rw [← h.starts, List.getElem?_map, hg']
    rfl
  rw [Timed.note, if_pos hless]
  refine { h with
    gets := forall₂_eraseIdx h.gets i
    starts := ?_
    answers := forall₂_append h.answers (.cons ⟨hg.key.symm, v, rfl, rfl⟩ .nil)
    spans := ?_ }
  · show (s.gets.eraseIdx i).map Get.since = o.starts.eraseIdx i
    rw [← h.starts, List.eraseIdx_map]
  · show (s.answers ++ [_]).map _ = o.spans ++ _
    rw [List.map_append, h.spans, hsince, ← h.applied]
    rfl

/-- A table that a snapshot has reads as its rows. -/
theorem Shadows.plainGet (h : Shadows o s) (hp : o.process.Sound) (hi : o.process.Refers i)
    {r : TableReader} (hr : o.process.objects[i]? = some r) (key : Bytes) :
    ∃ rows, s.engine.files.find? r.info.id = some rows ∧
      Sst.plainGet (o.process.files.find? r.info.id) r.info key = .ok (rows.find? key) := by
  obtain ⟨r', hr', hfile⟩ := hp.held i hi
  obtain rfl := Option.some.inj (hr.symm.trans hr')
  obtain ⟨u, hu, hmirrors⟩ := hp.mirrors r (List.mem_of_getElem? hr)
  obtain ⟨rows, himage, hbounds⟩ := h.published u hu
  have hstored := h.files r.info.id
  rw [hfile, hmirrors.content] at hstored
  rcases hrows : s.engine.files.find? r.info.id with _ | rows' <;> rw [hrows] at hstored
  · cases hstored
  obtain rfl := himage.unique (Option.rel_some_some.mp hstored)
  refine ⟨rows, rfl, ?_⟩
  rw [hfile, hmirrors.content, hmirrors.table]
  exact himage.plainGet hbounds key

theorem readTables_singleton {files : OrderedMap ℕ Rows} {t : TableMeta} {rows : Rows}
    (h : files.find? t.id = some rows) (key : Bytes) :
    Engine.readTables [] files key [t] = .ok (rows.find? key) := by
  rw [readTables_nil, Engine.findTables, h]
  dsimp only
  rcases hrow : rows.find? key with _ | hit
  · rfl
  · rfl

/-- What the consultation of a table comes to. -/
theorem Shadows.consultTable (h : Shadows o s) (hindexed : s.engine.misindexed = [])
    (hp : o.process.Sound) (hi : o.process.Refers i) {t : TableMeta}
    (ht : o.process.infoAt i = some t) (key : Bytes) :
    ∃ objects cache hit, o.process.consultTable true key i =
        ({ o.process with objects := objects, cache := cache }, .ok hit) ∧
      Engine.readTables s.engine.misindexed s.engine.files key [t] = .ok hit ∧
      objects.map (·.info) = o.process.objects.map (·.info) := by
  obtain ⟨r, objects, cache, hr, hinfos, hout, -⟩ := hp.consultTable hi key
  obtain ⟨r', hr', rfl⟩ := Process.infoAt_eq_some.mp ht
  obtain rfl := Option.some.inj (hr.symm.trans hr')
  obtain ⟨rows, hrows, hget⟩ := h.plainGet hp hi hr key
  exact ⟨objects, cache, rows.find? key, hget ▸ hout,
    hindexed.symm ▸ readTables_singleton hrows key, hinfos⟩

theorem Shadows.consult (h : Shadows o s) (hindexed : s.engine.misindexed = [])
    (hp : o.process.Sound) (hstep : o.process.consult true i = some p') :
    ∃ s', s.consult i = some s' ∧ Shadows (o.note (.consult i) p') s' := by
  obtain ⟨g, hg, rfl⟩ := Option.map_eq_some_iff.mp hstep
  obtain ⟨⟨key, version, own, since, place⟩, hg', hfollows⟩ := forall₂_getElem? h.gets hg
  obtain rfl : key = g.key := hfollows.key
  obtain rfl : own = g.own := hfollows.own
  have hspot := hfollows.spot
  have hfrozen : version.immutables = g.snapshot.immutables := hfollows.immutables
  rw [Threads.consult, hg']
  dsimp only
  rw [Get.consult, h.active]
  rcases hplace : g.spot with _ | ms | is <;> rw [hplace] at hspot
  · obtain rfl : place = .active := hspot
    dsimp only
    rcases (g.own.getD o.process.active).find g.key with _ | hit
    · exact ⟨_, rfl, h.resume hg' hfollows (.immutables _) (.immutables _)
        (congrArg Place.immutables hfrozen)⟩
    · exact ⟨_, rfl, h.answer hg hg' hfollows hit.result⟩
  · obtain rfl : place = .immutables ms := hspot
    rcases ms with _ | ⟨m, ms⟩ <;> dsimp only
    · exact ⟨_, rfl, h.resume hg' hfollows (.tables _) (.tables _) ⟨_, rfl, hfollows.tables⟩⟩
    · rcases m.find g.key with _ | hit
      · exact ⟨_, rfl, h.resume hg' hfollows (.immutables ms) (.immutables ms) rfl⟩
      · exact ⟨_, rfl, h.answer hg hg' hfollows hit.result⟩
  · obtain ⟨ts, rfl, hserves⟩ := hspot
    rcases is with _ | ⟨j, is⟩
    · obtain rfl := List.forall₂_nil_left_iff.mp hserves
      exact ⟨_, rfl, h.answer hg hg' hfollows none⟩
    · obtain ⟨t, ts, hj, hrest, rfl⟩ := List.forall₂_cons_left_iff.mp hserves
      have hsub := hp.places g (List.mem_of_getElem? hg) _ hplace
      obtain ⟨objects, cache, hit, hout, hfind, hinfos⟩ := h.consultTable hindexed hp
        (.inr ⟨g, List.mem_of_getElem? hg, hsub List.mem_cons_self⟩) hj g.key
      have hrefit := h.refit hinfos cache
      have hkeep : ∀ i info, o.process.infoAt i = some info → Process.infoAt i
          { o.process with objects := objects, cache := cache } = some info :=
        fun i info hi => (Process.infoAt_of_map hinfos i).trans hi
      have hfollows' := hfollows.mono hkeep
      dsimp only
      rw [hfind, hout]
      rcases hit with _ | hit
      · exact ⟨_, rfl, hrefit.resume hg' hfollows' (.tables is) (.tables ts)
          ⟨ts, rfl, Process.Serves.mono hrest hkeep⟩⟩
      · exact ⟨_, rfl, hrefit.answer hg hg' hfollows' hit.result⟩

end

/-! ## Writing -/

theorem Shadows.apply (h : Shadows o s) (r : Record) (wal : Wal Record) (acked : List Record) :
    Shadows (o.note (.apply r) (o.process.applyRecord r)) { s with
      engine := { s.engine.apply r with wal := wal }
      applied := s.applied ++ [r]
      acked := acked } :=
  { h with
    active := congrArg (fun m => m.apply r.key r.value r.seqno r.del) h.active
    applied := congrArg (· ++ [r]) h.applied }

theorem Shadows.rotate (h : Shadows o s) (r : Record) (acked : List Record)
    (hstep : o.process.rotate = some p') :
    ∃ s', ({ s with writer := .applied r, acked := acked } : Threads).rotate = some s' ∧
      Shadows (o.goTo p') s' ∧ s'.acked = acked ++ [r] := by
  have hrotates : Threads.rotates s.engine = o.process.rotates := by
    rw [Threads.rotates, Process.rotates, h.config, h.active, h.immutables]
  have hquiet : ({ s with writer := .applied r, acked := acked } : Threads).inRemoval = false := by
    rw [Threads.inRemoval]
    have hnot := h.creator.not_removing
    split
    · rename_i n ids hremoving
      exact absurd hremoving (hnot n ids)
    · rfl
  rw [Process.rotate] at hstep
  split at hstep
  · rename_i hdue
    obtain rfl := Option.some.inj hstep
    have hdue' : Threads.rotates s.engine = true := hrotates.trans hdue
    rw [Threads.rotate]
    dsimp only
    rw [if_pos hdue', hquiet, Threads.maybeRotate_of_rotates hdue']
    refine ⟨_, rfl, { h with
      active := congrArg (fun c : Config => Memtable.fresh c.overheadBytesPerEntry) h.config
      immutables := congrArg₂ List.cons h.active h.immutables
      frozen := congrArg₂ List.cons h.active h.immutables
      tables := h.readers
      writer := rfl
      gets := ?_
      starts := ?_ }, rfl⟩
    · refine List.forall₂_map_left_iff.mpr (List.forall₂_map_right_iff.mpr
        (h.gets.imp fun g g' hg => ⟨hg.key, ?_, hg.immutables, hg.tables, hg.spot⟩))
      show some (g'.own.getD s.engine.active) = some (g.own.getD o.process.active)
      rw [hg.own, h.active]
    · refine Eq.trans ?_ h.starts
      exact List.map_map
  · cases hstep

end

end LsmKv
