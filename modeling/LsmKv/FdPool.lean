import Mathlib.Logic.Relation
import Mathlib.Tactic.Common

/-!
# The descriptor pool

The victims of an eviction are plain pointers in the hands of one thread, outside every lock.
What keeps a reader is a version that lists it; nothing keeps a victim.
-/

namespace LsmKv
namespace FdPool

/-- A reader object, by its address. -/
abbrev Reader := ℕ

inductive Life where
  | alive
  /-- in its destructor, `on_close` is done -/
  | closing
  | destroyed
  deriving DecidableEq

structure Handle where
  fileOpen : Bool := false
  life : Life := .alive

/-- Where a thread is in `TableReader::get`. Inside, it holds the reader's `io_mutex_`. -/
inductive Stage where
  | outside
  | locked (r : Reader)
  /-- the file is open and `on_open` is next -/
  | opened (r : Reader)
  | evicting (r : Reader) (victims : List Reader)
  /-- `try_close_file` found the victim busy, which is to be put back -/
  | busy (r victim : Reader) (victims : List Reader)
  | reading (r : Reader)

/-- The reader whose `io_mutex_` is held. -/
def Stage.reader : Stage → Option Reader
  | .outside => none
  | .locked r | .opened r | .evicting r _ | .busy r _ _ | .reading r => some r

/-- The victims still in hand. -/
def Stage.victims : Stage → List Reader
  | .evicting _ vs => vs
  | .busy _ v vs => v :: vs
  | _ => []

/-- A thread that gets, with the readers of the version it holds. -/
structure Lookup where
  version : List Reader := []
  stage : Stage := .outside

/-- The pool, the readers made so far, those of the current version, and the threads. -/
structure Pool where
  maxOpen : ℕ
  lru : List Reader := []
  readers : List Handle := []
  published : List Reader := []
  threads : List Lookup

inductive Action where
  | load (t : ℕ)
  | lock (t : ℕ) (r : Reader)
  | ensureOpen (t : ℕ)
  | collect (t : ℕ)
  | tryClose (t : ℕ)
  | pushBack (t : ℕ)
  | proceed (t : ℕ)
  | leave (t : ℕ)
  | finish (t : ℕ)
  | publish (kept : List Reader) (added : ℕ)
  | onClose (r : Reader)
  | destroy (r : Reader)

namespace Pool

/-- `FdPool(max_open)`: at least one file may be open. -/
def start (max_open threads : ℕ) : Pool where
  maxOpen := if max_open = 0 then 1 else max_open
  threads := List.replicate threads {}

/-! ## A get -/

def setThread (t : ℕ) (l : Lookup) (s : Pool) : Pool := { s with threads := s.threads.set t l }

/-- `io_mutex_` of the reader is taken. -/
def ioLocked (s : Pool) (r : Reader) : Bool := s.threads.any (fun l => l.stage.reader = some r)

/-- `get` loads the current version. -/
def load (t : ℕ) (s : Pool) : Option Pool :=
  match s.threads[t]? with
  | some ⟨_, .outside⟩ => some (s.setThread t ⟨s.published, .outside⟩)
  | _ => none

def lock (t : ℕ) (r : Reader) (s : Pool) : Option Pool :=
  match s.threads[t]? with
  | some ⟨version, .outside⟩ =>
    if r ∈ version ∧ s.ioLocked r = false then some (s.setThread t ⟨version, .locked r⟩) else none
  | _ => none

def touch (r : Reader) (lru : List Reader) : List Reader :=
  if r ∈ lru then r :: lru.erase r else lru

/-- `ensure_open` up to `on_open`, or with `touch`. -/
def ensureOpen (t : ℕ) (s : Pool) : Option Pool :=
  match s.threads[t]? with
  | some ⟨version, .locked r⟩ => match s.readers[r]? with
    | some h =>
      if h.fileOpen then
        some ({ s with lru := touch r s.lru }.setThread t ⟨version, .reading r⟩)
      else some ({ s with readers := s.readers.set r { h with fileOpen := true } }.setThread t
        ⟨version, .opened r⟩)
    | none => none
  | _ => none

/-- The first block of `on_open`: what is past the limit goes, the last one first. -/
def collect (t : ℕ) (s : Pool) : Option Pool :=
  match s.threads[t]? with
  | some ⟨version, .opened r⟩ => some ({ s with lru := (r :: s.lru).take s.maxOpen }.setThread t
      ⟨version, .evicting r ((r :: s.lru).drop s.maxOpen).reverse⟩)
  | _ => none

/-- `try_close_file` of the next victim. -/
def tryClose (t : ℕ) (s : Pool) : Option Pool :=
  match s.threads[t]? with
  | some ⟨version, .evicting r (v :: vs)⟩ =>
    if s.ioLocked v then some (s.setThread t ⟨version, .busy r v vs⟩)
    else some ({ s with readers := s.readers.modify v (fun h => { h with fileOpen := false })
      }.setThread t ⟨version, .evicting r vs⟩)
  | _ => none

/-- A busy victim is put back. -/
def pushBack (t : ℕ) (s : Pool) : Option Pool :=
  match s.threads[t]? with
  | some ⟨version, .busy r v vs⟩ =>
    some ({ s with lru := s.lru ++ [v] }.setThread t ⟨version, .evicting r vs⟩)
  | _ => none

def proceed (t : ℕ) (s : Pool) : Option Pool :=
  match s.threads[t]? with
  | some ⟨version, .evicting r []⟩ => some (s.setThread t ⟨version, .reading r⟩)
  | _ => none

/-- `TableReader::get` returns, or throws because the file cannot be opened. -/
def leave (t : ℕ) (s : Pool) : Option Pool :=
  match s.threads[t]? with
  | some ⟨version, .reading _⟩ | some ⟨version, .locked _⟩ =>
    some (s.setThread t ⟨version, .outside⟩)
  | _ => none

/-- `Engine::get` returns and lets go of its version. -/
def finish (t : ℕ) (s : Pool) : Option Pool :=
  match s.threads[t]? with
  | some ⟨_, .outside⟩ => some (s.setThread t ⟨[], .outside⟩)
  | _ => none

/-! ## Flushes, compactions and destructors -/

/-- A flush or a compaction publishes a version: some readers as before and some new ones. -/
def publish (kept : List Reader) (added : ℕ) (s : Pool) : Option Pool :=
  if ∀ r ∈ kept, r ∈ s.published then some { s with
    readers := s.readers ++ List.replicate added {}
    published := List.range' s.readers.length added ++ kept }
  else none

/-- A version lists the reader. -/
def referenced (s : Pool) (r : Reader) : Bool :=
  r ∈ s.published || s.threads.any (fun l => r ∈ l.version)

/-- The destructor of a reader whose last reference is gone, up to the end of `on_close`. -/
def onClose (r : Reader) (s : Pool) : Option Pool :=
  match s.readers[r]? with
  | some h =>
    if h.life = .alive ∧ s.referenced r = false then some { s with
      lru := s.lru.filter (· ≠ r)
      readers := s.readers.set r { h with life := .closing } }
    else none
  | none => none

/-- The rest of the destructor. -/
def destroy (r : Reader) (s : Pool) : Option Pool :=
  match s.readers[r]? with
  | some h =>
    if h.life = .closing then some { s with
      readers := s.readers.set r { fileOpen := false, life := .destroyed } }
    else none
  | none => none

def step (s : Pool) : Action → Option Pool
  | .load t => s.load t
  | .lock t r => s.lock t r
  | .ensureOpen t => s.ensureOpen t
  | .collect t => s.collect t
  | .tryClose t => s.tryClose t
  | .pushBack t => s.pushBack t
  | .proceed t => s.proceed t
  | .leave t => s.leave t
  | .finish t => s.finish t
  | .publish kept added => s.publish kept added
  | .onClose r => s.onClose r
  | .destroy r => s.destroy r

/-- Steps that each meet the condition where they come. -/
abbrev Runs (ok : Pool → Action → Prop) : Pool → Pool → Prop :=
  Relation.ReflTransGen (fun s s' => ∃ a, ok s a ∧ s.step a = some s')

/-! ## What keeps the pool sound -/

def Alive (s : Pool) (r : Reader) : Prop := ∃ h, s.readers[r]? = some h ∧ h.life = .alive

def Destroyed (s : Pool) (r : Reader) : Prop := ∃ h, s.readers[r]? = some h ∧ h.life = .destroyed

/-- The reader that the thread's next `try_close_file` is called on. -/
def target (s : Pool) (t : ℕ) : Option Reader :=
  match s.threads[t]? with
  | some ⟨_, .evicting _ (v :: _)⟩ => some v
  | _ => none

/-- A destructor gets to `on_close` while no thread has its reader in hand. -/
def Unheld (s : Pool) : Action → Prop
  | .onClose r => ∀ l ∈ s.threads, r ∉ l.stage.victims
  | _ => True

/-- Whatever is listed, referenced or in hand is alive. -/
structure Sound (s : Pool) : Prop where
  published : ∀ r ∈ s.published, s.Alive r
  versions : ∀ l ∈ s.threads, ∀ r ∈ l.version, s.Alive r
  inside : ∀ l ∈ s.threads, ∀ r ∈ l.stage.reader, r ∈ l.version
  listed : ∀ r ∈ s.lru, s.Alive r
  held : ∀ l ∈ s.threads, ∀ v ∈ l.stage.victims, s.Alive v

theorem not_alive_of_destroyed {s : Pool} {r : Reader} (h : s.Destroyed r) : ¬s.Alive r := by
  rintro ⟨a, ha, halive⟩
  obtain ⟨b, hb, hdestroyed⟩ := h
  obtain rfl := Option.some.inj (ha.symm.trans hb)
  rw [halive] at hdestroyed
  cases hdestroyed

theorem sound_start (max_open threads : ℕ) : Sound (start max_open threads) := by
  have hidle : ∀ l ∈ (start max_open threads).threads, l = {} := fun l hl =>
    List.eq_of_mem_replicate hl
  refine ⟨nofun, fun l hl => ?_, fun l hl => ?_, nofun, fun l hl => ?_⟩ <;>
    rw [hidle l hl] <;> exact nofun

section
variable {s s' : Pool}

/-- One thread goes on, the list and the readers change, and nothing dies. -/
theorem Sound.advance (h : Sound s) {t : ℕ} {l : Lookup} {lru : List Reader}
    {readers : List Handle}
    (halive : ∀ r, s.Alive r → { s with lru := lru, readers := readers }.Alive r)
    (hversion : ∀ r ∈ l.version, s.Alive r) (hinside : ∀ r ∈ l.stage.reader, r ∈ l.version)
    (hlisted : ∀ r ∈ lru, s.Alive r) (hheld : ∀ v ∈ l.stage.victims, s.Alive v) :
    Sound ({ s with lru := lru, readers := readers }.setThread t l) := by
  have hthread : ∀ {P : Lookup → Prop}, (∀ l ∈ s.threads, P l) → P l →
      ∀ l' ∈ s.threads.set t l, P l' := by
    intro P hall hnew l' hl'
    rcases List.mem_or_eq_of_mem_set hl' with hl' | rfl
    · exact hall l' hl'
    · exact hnew
  exact ⟨fun r hr => halive r (h.published r hr),
    hthread (fun l' hl' r hr => halive r (h.versions l' hl' r hr))
      (fun r hr => halive r (hversion r hr)),
    hthread h.inside hinside, fun r hr => halive r (hlisted r hr),
    hthread (fun l' hl' v hv => halive v (h.held l' hl' v hv)) (fun v hv => halive v (hheld v hv))⟩

/-- One thread goes on and nothing else changes. -/
theorem Sound.setThread (h : Sound s) {t : ℕ} {l : Lookup} (hversion : ∀ r ∈ l.version, s.Alive r)
    (hinside : ∀ r ∈ l.stage.reader, r ∈ l.version) (hheld : ∀ v ∈ l.stage.victims, s.Alive v) :
    Sound (s.setThread t l) := h.advance (fun _ hr => hr) hversion hinside h.listed hheld

theorem Alive.of_set {lru : List Reader} {r : Reader} {a b : Handle} (ha : s.readers[r]? = some a)
    (hlife : b.life = a.life) {r' : Reader} (h : s.Alive r') :
    { s with lru := lru, readers := s.readers.set r b }.Alive r' := by
  obtain ⟨c, hc, halive⟩ := h
  by_cases hr : r = r'
  · subst hr
    obtain rfl := Option.some.inj (ha.symm.trans hc)
    exact ⟨b, List.getElem?_set_self' .. |>.trans (by rw [ha]; rfl), hlife.trans halive⟩
  · exact ⟨c, (List.getElem?_set_ne hr).trans hc, halive⟩

theorem Sound.ensureOpen (h : Sound s) {t : ℕ} (hs : s.ensureOpen t = some s') : Sound s' := by
  rw [Pool.ensureOpen] at hs
  split at hs
  · rename_i version r hthread
    have hl := List.mem_of_getElem? hthread
    have hversion := h.versions _ hl
    have hr : r ∈ version := h.inside _ hl r rfl
    split at hs
    · rename_i a ha
      split at hs
      · obtain rfl := Option.some.inj hs
        refine h.advance (fun _ hr => hr) hversion (fun r' hr' => Option.some.inj hr' ▸ hr)
          (fun r' hr' => ?_) nofun
        rw [touch] at hr'
        split at hr'
        · rcases List.mem_cons.mp hr' with rfl | hr'
          · exact hversion r' hr
          · exact h.listed r' (List.mem_of_mem_erase hr')
        · exact h.listed r' hr'
      · obtain rfl := Option.some.inj hs
        exact h.advance (fun r' hr' => hr'.of_set (b := { a with fileOpen := true }) ha rfl)
          hversion (fun r' hr' => Option.some.inj hr' ▸ hr) h.listed nofun
    · cases hs
  · cases hs

theorem Sound.collect (h : Sound s) {t : ℕ} (hs : s.collect t = some s') : Sound s' := by
  rw [Pool.collect] at hs
  split at hs
  · rename_i version r hthread
    have hl := List.mem_of_getElem? hthread
    have hversion : ∀ r' ∈ version, s.Alive r' := h.versions _ hl
    have hr : r ∈ version := h.inside _ hl r rfl
    have hlisted : ∀ r' ∈ r :: s.lru, s.Alive r' :=
      List.forall_mem_cons.mpr ⟨hversion r hr, h.listed⟩
    obtain rfl := Option.some.inj hs
    exact h.advance (fun _ hr => hr) hversion (fun r' hr' => Option.some.inj hr' ▸ hr)
      (fun r' hr' => hlisted r' (List.mem_of_mem_take hr'))
      (fun v hv => hlisted v (List.mem_of_mem_drop (List.mem_reverse.mp hv)))
  · cases hs

theorem Sound.tryClose (h : Sound s) {t : ℕ} (hs : s.tryClose t = some s') : Sound s' := by
  rw [Pool.tryClose] at hs
  split at hs
  · rename_i version r v vs hthread
    have hl := List.mem_of_getElem? hthread
    have hversion : ∀ r' ∈ version, s.Alive r' := h.versions _ hl
    have hinside : ∀ r' ∈ some r, r' ∈ version := fun r' hr' => h.inside _ hl r' hr'
    have hheld : ∀ v' ∈ v :: vs, s.Alive v' := h.held _ hl
    split at hs
    · obtain rfl := Option.some.inj hs
      exact h.setThread hversion hinside hheld
    · obtain rfl := Option.some.inj hs
      refine h.advance (fun r' hr' => ?_) hversion hinside h.listed
        (fun v' hv' => hheld v' (List.mem_cons_of_mem _ hv'))
      obtain ⟨a, ha, halive⟩ := hr'
      by_cases hv : v = r'
      · exact ⟨{ a with fileOpen := false }, by simp [ha, hv], halive⟩
      · exact ⟨a, by simp [ha, hv], halive⟩
  · cases hs

theorem Sound.pushBack (h : Sound s) {t : ℕ} (hs : s.pushBack t = some s') : Sound s' := by
  rw [Pool.pushBack] at hs
  split at hs
  · rename_i version r v vs hthread
    have hl := List.mem_of_getElem? hthread
    have hversion : ∀ r' ∈ version, s.Alive r' := h.versions _ hl
    have hinside : ∀ r' ∈ some r, r' ∈ version := fun r' hr' => h.inside _ hl r' hr'
    obtain ⟨hv, hvs⟩ := List.forall_mem_cons.mp (show ∀ v' ∈ v :: vs, s.Alive v' from h.held _ hl)
    obtain rfl := Option.some.inj hs
    refine h.advance (fun _ hr => hr) hversion hinside (fun r' hr' => ?_) hvs
    rcases List.mem_append.mp hr' with hr' | hr'
    · exact h.listed r' hr'
    · exact List.mem_singleton.mp hr' ▸ hv
  · cases hs

theorem Sound.publish (h : Sound s) {kept : List Reader} {added : ℕ}
    (hs : s.publish kept added = some s') : Sound s' := by
  rw [Pool.publish] at hs
  split at hs
  · rename_i hkept
    obtain rfl := Option.some.inj hs
    have hold : ∀ r, s.Alive r → Alive { s with
        readers := s.readers ++ List.replicate added {}
        published := List.range' s.readers.length added ++ kept } r := by
      rintro r ⟨a, ha, halive⟩
      refine ⟨a, ?_, halive⟩
      rw [List.getElem?_append_left (List.getElem?_eq_some_iff.mp ha).1]
      exact ha
    refine ⟨fun r hr => ?_, fun l hl r hr => hold r (h.versions l hl r hr), h.inside,
      fun r hr => hold r (h.listed r hr), fun l hl v hv => hold v (h.held l hl v hv)⟩
    rcases List.mem_append.mp hr with hr | hr
    · obtain ⟨hle, hlt⟩ := List.mem_range'_1.mp hr
      refine ⟨{}, ?_, rfl⟩
      rw [List.getElem?_append_right hle, List.getElem?_replicate, if_pos (by omega)]
    · exact hold r (h.published r (hkept r hr))
  · cases hs

/-- A destructor touches no reader but its own. -/
theorem Alive.of_set_other {s s' : Pool} {r r' : Reader} {a : Handle} (h : s.Alive r')
    (hr : r ≠ r') (heq : s'.readers = s.readers.set r a) : s'.Alive r' := by
  obtain ⟨b, hb, halive⟩ := h
  exact ⟨b, by rw [heq, List.getElem?_set_ne hr, hb], halive⟩

theorem Sound.onClose (h : Sound s) {r : Reader} (hheld : ∀ l ∈ s.threads, r ∉ l.stage.victims)
    (hs : s.onClose r = some s') : Sound s' := by
  rw [Pool.onClose] at hs
  split at hs
  · rename_i a ha
    split at hs
    · rename_i hlast
      obtain rfl := Option.some.inj hs
      have hunreferenced := hlast.2
      simp only [referenced, Bool.or_eq_false_iff, decide_eq_false_iff_not,
        List.any_eq_false, decide_eq_true_eq] at hunreferenced
      obtain ⟨hpublished, hversions⟩ := hunreferenced
      have hother : ∀ r', s.Alive r' → r ≠ r' → Alive { s with
          lru := s.lru.filter (· ≠ r)
          readers := s.readers.set r { a with life := .closing } } r' :=
        fun r' hr' hne => hr'.of_set_other hne rfl
      refine ⟨fun r' hr' => hother r' (h.published r' hr') ?_,
        fun l hl r' hr' => hother r' (h.versions l hl r' hr') ?_, h.inside, fun r' hr' => ?_,
        fun l hl v hv => hother v (h.held l hl v hv) ?_⟩
      · rintro rfl
        exact hpublished hr'
      · rintro rfl
        exact hversions l hl hr'
      · obtain ⟨hmem, hne⟩ := List.mem_filter.mp hr'
        exact hother r' (h.listed r' hmem) (Ne.symm (by simpa using hne))
      · rintro rfl
        exact hheld l hl hv
    · cases hs
  · cases hs

theorem Sound.destroy (h : Sound s) {r : Reader} (hs : s.destroy r = some s') : Sound s' := by
  rw [Pool.destroy] at hs
  split at hs
  · rename_i a ha
    split at hs
    · rename_i hclosing
      obtain rfl := Option.some.inj hs
      have hother : ∀ r', s.Alive r' → Alive { s with
          readers := s.readers.set r { fileOpen := false, life := .destroyed } } r' := by
        intro r' hr'
        refine hr'.of_set_other ?_ rfl
        rintro rfl
        obtain ⟨b, hb, halive⟩ := hr'
        obtain rfl := Option.some.inj (ha.symm.trans hb)
        rw [hclosing] at halive
        cases halive
      exact ⟨fun r' hr' => hother r' (h.published r' hr'),
        fun l hl r' hr' => hother r' (h.versions l hl r' hr'), h.inside,
        fun r' hr' => hother r' (h.listed r' hr'),
        fun l hl v hv => hother v (h.held l hl v hv)⟩
    · cases hs
  · cases hs

theorem Sound.step (h : Sound s) {a : Action} (ha : s.Unheld a) (hs : s.step a = some s') :
    Sound s' := by
  cases a with
  | ensureOpen t => exact h.ensureOpen hs
  | collect t => exact h.collect hs
  | tryClose t => exact h.tryClose hs
  | pushBack t => exact h.pushBack hs
  | publish kept added => exact h.publish hs
  | onClose r => exact h.onClose ha hs
  | destroy r => exact h.destroy hs
  | load t =>
    simp only [Pool.step, load] at hs
    split at hs
    · obtain rfl := Option.some.inj hs
      exact h.setThread h.published nofun nofun
    · cases hs
  | lock t r =>
    simp only [Pool.step, lock] at hs
    split at hs
    · rename_i version hthread
      split at hs
      · rename_i hr
        have hversion : ∀ r' ∈ version, s.Alive r' := h.versions _ (List.mem_of_getElem? hthread)
        obtain rfl := Option.some.inj hs
        exact h.setThread hversion (fun r' hr' => Option.some.inj hr' ▸ hr.1) nofun
      · cases hs
    · cases hs
  | proceed t =>
    simp only [Pool.step, proceed] at hs
    split at hs
    · rename_i version r hthread
      have hl := List.mem_of_getElem? hthread
      have hversion : ∀ r' ∈ version, s.Alive r' := h.versions _ hl
      have hinside : ∀ r' ∈ some r, r' ∈ version := fun r' hr' => h.inside _ hl r' hr'
      obtain rfl := Option.some.inj hs
      exact h.setThread hversion hinside nofun
    · cases hs
  | leave t =>
    simp only [Pool.step, leave] at hs
    split at hs
    · rename_i version r hthread
      have hversion : ∀ r' ∈ version, s.Alive r' := h.versions _ (List.mem_of_getElem? hthread)
      obtain rfl := Option.some.inj hs
      exact h.setThread hversion nofun nofun
    · rename_i version r hthread
      have hversion : ∀ r' ∈ version, s.Alive r' := h.versions _ (List.mem_of_getElem? hthread)
      obtain rfl := Option.some.inj hs
      exact h.setThread hversion nofun nofun
    · cases hs
  | finish t =>
    simp only [Pool.step, finish] at hs
    split at hs
    · obtain rfl := Option.some.inj hs
      exact h.setThread nofun nofun nofun
    · cases hs

end

theorem Runs.sound {s s' : Pool} (h : Runs Unheld s s') (hs : Sound s) : Sound s' := by
  induction h with
  | refl => exact hs
  | tail _ hlast ih =>
    obtain ⟨a, ha, hstep⟩ := hlast
    exact ih.step ha hstep

/-- In every run whose destructors start while no thread has their reader in hand,
`try_close_file` is called on no destroyed reader and the list names none. -/
theorem no_destroyed_of_unheld (max_open threads : ℕ) {s : Pool}
    (h : Runs Unheld (start max_open threads) s) :
    (∀ t, ∀ v ∈ s.target t, ¬s.Destroyed v) ∧ ∀ r, s.Destroyed r → r ∉ s.lru := by
  have hsound := h.sound (sound_start max_open threads)
  constructor
  · intro t v hv hdestroyed
    rw [target] at hv
    split at hv
    · rename_i version r v' vs hthread
      obtain rfl := Option.some.inj hv
      exact not_alive_of_destroyed hdestroyed
        (hsound.held _ (List.mem_of_getElem? hthread) v' List.mem_cons_self)
    · cases hv
  · exact fun r hdestroyed hr => not_alive_of_destroyed hdestroyed (hsound.listed r hr)

/-! ## Two orders of the same steps -/

instance (s : Pool) : (a : Action) → Decidable (s.Unheld a)
  | .onClose r => inferInstanceAs (Decidable (∀ l ∈ s.threads, r ∉ l.stage.victims))
  | .load _ | .lock _ _ | .ensureOpen _ | .collect _ | .tryClose _ | .pushBack _ | .proceed _
  | .leave _ | .finish _ | .publish _ _ | .destroy _ => inferInstanceAs (Decidable True)

/-- Steps one after another, each of which can be taken and meets the condition. -/
def perform (ok : Pool → Action → Prop) [∀ s a, Decidable (ok s a)] (s : Pool) :
    List Action → Option Pool
  | [] => some s
  | a :: as => if ok s a then (s.step a).bind (perform ok · as) else none

theorem runs_perform {ok : Pool → Action → Prop} [∀ s a, Decidable (ok s a)] {s s' : Pool}
    {as : List Action} (h : s.perform ok as = some s') : Runs ok s s' := by
  induction as generalizing s with
  | nil =>
    obtain rfl := Option.some.inj h
    exact .refl
  | cons a as ih =>
    rw [perform] at h
    split at h
    · rename_i hok
      obtain ⟨s₁, hs₁, hrest⟩ := Option.bind_eq_some_iff.mp h
      exact .head ⟨a, hok, hs₁⟩ (ih hrest)
    · cases h

/-- One file may be open. Thread 0 has read reader 0 and still holds its version; a compaction
replaces the reader by reader 1, which thread 1 opens, so that it takes reader 0 in hand. -/
def handOver : List Action :=
  [.publish [] 1, .load 0, .lock 0 0, .ensureOpen 0, .collect 0, .proceed 0, .leave 0,
    .publish [] 1, .load 1, .lock 1 1, .ensureOpen 1, .collect 1]

/-- The victim is closed before its destructor starts. -/
theorem no_destroyed_closedFirst : ∃ s : Pool, (start 1 2).perform Unheld
      (handOver ++ [.tryClose 1, .finish 0, .onClose 0, .destroy 0]) = some s ∧
    s.Destroyed 0 ∧ (∀ t, ∀ v ∈ s.target t, ¬s.Destroyed v) ∧ ∀ r, s.Destroyed r → r ∉ s.lru := by
  have hrun : ∃ s : Pool, (start 1 2).perform Unheld
      (handOver ++ [.tryClose 1, .finish 0, .onClose 0, .destroy 0]) = some s ∧ s.Destroyed 0 :=
    ⟨_, rfl, _, rfl, rfl⟩
  obtain ⟨s, hs, hdestroyed⟩ := hrun
  exact ⟨s, hs, hdestroyed, no_destroyed_of_unheld 1 2 (runs_perform hs)⟩

/-- The last reference goes first: the victim in hand is destroyed, and `try_close_file` is called
on it. -/
theorem not_no_destroyed_droppedFirst : ∃ s : Pool, Runs (fun _ _ => True) (start 1 2) s ∧
    s.target 1 = some 0 ∧ s.Destroyed 0 ∧ (s.step (.tryClose 1)).isSome ∧
    ¬((∀ t, ∀ v ∈ s.target t, ¬s.Destroyed v) ∧ ∀ r, s.Destroyed r → r ∉ s.lru) := by
  have hrun : ∃ s, (start 1 2).perform (fun _ _ => True)
      (handOver ++ [.finish 0, .onClose 0, .destroy 0]) = some s ∧ s.target 1 = some 0 ∧
      s.Destroyed 0 ∧ (s.step (.tryClose 1)).isSome :=
    ⟨_, rfl, rfl, ⟨_, rfl, rfl⟩, rfl⟩
  obtain ⟨s, hs, htarget, hdestroyed, hstep⟩ := hrun
  exact ⟨s, runs_perform hs, htarget, hdestroyed, hstep, fun hsafe =>
    hsafe.1 1 0 htarget hdestroyed⟩

end Pool
end FdPool
end LsmKv
