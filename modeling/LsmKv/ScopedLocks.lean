import Mathlib.Data.Fintype.Basic
import Mathlib.Logic.Function.Basic
import Mathlib.Logic.Relation
import Mathlib.Tactic.Common

/-!
# Programs with scoped locks

Any number of threads run programs whose locks are held for a scope, with condition waits,
`try_lock`, and exceptions that unwind. When every lock is taken above those held, the threads
that wait for one another form no cycle.
-/

namespace LsmKv
namespace ScopedLocks

inductive Mode where
  | shared
  | exclusive
  deriving DecidableEq

/-- What a program does with its locks. -/
inductive Prog (M : Type*) where
  | skip
  | seq (p q : Prog M)
  | choice (p q : Prog M)
  /-- `p` any number of times -/
  | loop (p : Prog M)
  | guard (m : M) (mode : Mode) (p : Prog M)
  /-- `try_lock`: `p` with the lock, or `q` without -/
  | tryGuard (m : M) (p q : Prog M)
  /-- `p`, and `c` however `p` ends -/
  | ensure (p c : Prog M)
  /-- a condition wait that gives up `m` for the time being -/
  | wait (m : M)

/-- What a thread has still to do. -/
inductive Cmd (M : Type*) where
  | run (p : Prog M)
  | cleanup (c : Prog M)
  | release (m : M) (mode : Mode)
  /-- the end of a wait -/
  | reacquire (m : M)

/-- A thread in an operation, with the locks it holds, the last one first. -/
structure Thread (M Op : Type*) where
  op : Option Op := none
  held : List (M × Mode) := []
  todo : List (Cmd M) := []
  asleep : Bool := false

variable {M Op T : Type*}

namespace Prog

def exclusive (m : M) (p : Prog M) : Prog M := .guard m .exclusive p

def shared (m : M) (p : Prog M) : Prog M := .guard m .shared p

def all (ps : List (Prog M)) : Prog M := ps.foldr .seq .skip

end Prog

/-! ## Steps -/

/-- An exception leaves the scopes, with what is due at their ends. -/
def unwind : List (Cmd M) → List (Cmd M)
  | [] => []
  | .run _ :: k => unwind k
  | c :: k => c :: unwind k

section
variable [DecidableEq M]

/-- One step of a thread. `free m mode` says that nobody holds `m` in a way that excludes it. -/
inductive Advance (free : M → Mode → Prop) (th : Thread M Op) : Thread M Op → Prop where
  | skip {k} (h : th.todo = .run .skip :: k) : Advance free th { th with todo := k }
  | seq {p q k} (h : th.todo = .run (.seq p q) :: k) :
    Advance free th { th with todo := .run p :: .run q :: k }
  | left {p q k} (h : th.todo = .run (.choice p q) :: k) :
    Advance free th { th with todo := .run p :: k }
  | right {p q k} (h : th.todo = .run (.choice p q) :: k) :
    Advance free th { th with todo := .run q :: k }
  | again {p k} (h : th.todo = .run (.loop p) :: k) :
    Advance free th { th with todo := .run p :: .run (.loop p) :: k }
  | leave {p k} (h : th.todo = .run (.loop p) :: k) : Advance free th { th with todo := k }
  | lock {m mode p k} (h : th.todo = .run (.guard m mode p) :: k) (hfree : free m mode) :
    Advance free th { th with
      held := (m, mode) :: th.held
      todo := .run p :: .release m mode :: k }
  | tryLock {m p q k} (h : th.todo = .run (.tryGuard m p q) :: k) (hfree : free m .exclusive) :
    Advance free th { th with
      held := (m, .exclusive) :: th.held
      todo := .run p :: .release m .exclusive :: k }
  | busy {m p q k} (h : th.todo = .run (.tryGuard m p q) :: k) :
    Advance free th { th with todo := .run q :: k }
  | enter {p c k} (h : th.todo = .run (.ensure p c) :: k) :
    Advance free th { th with todo := .run p :: .cleanup c :: k }
  | sleep {m k} (h : th.todo = .run (.wait m) :: k) :
    Advance free th { th with
      held := th.held.erase (m, .exclusive)
      todo := .reacquire m :: k
      asleep := true }
  /-- notified, timed out or spuriously -/
  | wake (h : th.asleep = true) : Advance free th { th with asleep := false }
  | relock {m k} (h : th.todo = .reacquire m :: k) (hawake : th.asleep = false)
    (hfree : free m .exclusive) :
    Advance free th { th with held := (m, .exclusive) :: th.held, todo := k }
  | release {m mode k} (h : th.todo = .release m mode :: k) :
    Advance free th { th with held := th.held.erase (m, mode), todo := k }
  | cleanup {c k} (h : th.todo = .cleanup c :: k) :
    Advance free th { th with todo := .run c :: k }
  | raise {p k} (h : th.todo = .run p :: k) : Advance free th { th with todo := unwind k }

/-- Two modes of one lock that exclude each other. -/
def Conflict (mode mode' : Mode) : Prop := mode = .exclusive ∨ mode' = .exclusive

instance : DecidableRel Conflict := fun _ _ => inferInstanceAs (Decidable (_ ∨ _))

def Free (s : T → Thread M Op) (m : M) (mode : Mode) : Prop :=
  ∀ u, ∀ h ∈ (s u).held, h.1 = m → ¬Conflict h.2 mode

instance [Fintype T] (s : T → Thread M Op) (m : M) (mode : Mode) : Decidable (Free s m mode) :=
  inferInstanceAs (Decidable (∀ u, ∀ h ∈ (s u).held, h.1 = m → ¬Conflict h.2 mode))

variable [DecidableEq T]

/-- A thread begins an operation or goes on with one. -/
inductive Step (prog : Op → Prog M) (s : T → Thread M Op) : (T → Thread M Op) → Prop where
  | call (t : T) (op : Op) (h : (s t).todo = []) :
    Step prog s (Function.update s t { op := some op, todo := [.run (prog op)] })
  | advance (t : T) {th : Thread M Op} (h : Advance (Free s) (s t) th) :
    Step prog s (Function.update s t th)

/-- The states of any run. -/
def Reachable (prog : Op → Prog M) (s : T → Thread M Op) : Prop :=
  Relation.ReflTransGen (Step prog) (fun _ => {}) s

section
variable {prog : Op → Prog M} {s : T → Thread M Op}

theorem Reachable.start : Reachable prog (fun _ : T => {}) := .refl

theorem Reachable.call (h : Reachable prog s) (t : T) (op : Op) (hidle : (s t).todo = []) :
    Reachable prog (Function.update s t { op := some op, todo := [.run (prog op)] }) :=
  h.tail (.call t op hidle)

theorem Reachable.advance (h : Reachable prog s) (t : T) {th : Thread M Op}
    (hadv : Advance (Free s) (s t) th) : Reachable prog (Function.update s t th) :=
  h.tail (.advance t hadv)

end

end

/-! ## Waiting -/

/-- The lock the thread cannot go on without. -/
inductive Wants (th : Thread M Op) : M → Mode → Prop where
  | lock {m mode p k} (h : th.todo = .run (.guard m mode p) :: k) : Wants th m mode
  | relock {m k} (h : th.todo = .reacquire m :: k) (hawake : th.asleep = false) :
    Wants th m .exclusive

/-- The thread waits for a lock another one holds. -/
def WaitsFor (s : T → Thread M Op) (t u : T) : Prop :=
  ∃ m mode, Wants (s t) m mode ∧ ∃ h ∈ (s u).held, h.1 = m ∧ Conflict h.2 mode

/-- The thread is in a condition wait. -/
def Stalled (th : Thread M Op) : Prop := ∃ m k, th.todo = .reacquire m :: k

/-! ## The discipline -/

/-- An order of the locks, and what may be held through a condition wait. -/
structure Discipline (M : Type*) where
  rank : M → ℕ
  waits : List (M × Mode) → Prop

variable (d : Discipline M)

/-- All that is held is below `m`. -/
def Below (held : List (M × Mode)) (m : M) : Prop := ∀ h ∈ held, d.rank h.1 < d.rank m

/-- A program takes its locks in order, given what is held. -/
def Prog.Obeys : List (M × Mode) → Prog M → Prop
  | _, .skip => True
  | held, .seq p q => p.Obeys held ∧ q.Obeys held
  | held, .choice p q => p.Obeys held ∧ q.Obeys held
  | held, .loop p => p.Obeys held
  | held, .guard m mode p => Below d held m ∧ p.Obeys ((m, mode) :: held)
  | held, .tryGuard m p q => p.Obeys ((m, .exclusive) :: held) ∧ q.Obeys held
  | held, .ensure p c => p.Obeys held ∧ c.Obeys held
  | held, .wait m => ∃ rest, held = (m, .exclusive) :: rest ∧ Below d rest m ∧ d.waits rest

/-- The rest of an operation obeys, and releases what is held. -/
def Obeying : List (M × Mode) → List (Cmd M) → Prop
  | held, [] => held = []
  | held, .run p :: k => p.Obeys d held ∧ Obeying held k
  | held, .cleanup c :: k => c.Obeys d held ∧ Obeying held k
  | held, .release m mode :: k => ∃ rest, held = (m, mode) :: rest ∧ Obeying rest k
  | held, .reacquire m :: k =>
    Below d held m ∧ d.waits held ∧ Obeying ((m, .exclusive) :: held) k

/-- The locks a program may have to wait for. -/
def Prog.Takes (m : M) : Prog M → Prop
  | .skip => False
  | .seq p q | .choice p q | .ensure p q => p.Takes m ∨ q.Takes m
  | .loop p => p.Takes m
  | .guard m' _ p => m' = m ∨ p.Takes m
  | .tryGuard _ p q => p.Takes m ∨ q.Takes m
  | .wait m' => m' = m

theorem obeys_all {d : Discipline M} {held : List (M × Mode)} {ps : List (Prog M)} :
    (Prog.all ps).Obeys d held ↔ ∀ p ∈ ps, p.Obeys d held := by
  induction ps with
  | nil => exact ⟨fun _ => nofun, fun _ => trivial⟩
  | cons p ps ih =>
    rw [List.forall_mem_cons, ← ih]
    rfl

/-- What a program may have to wait for is not below what is held. -/
theorem Prog.Obeys.le_of_takes {d : Discipline M} {held : List (M × Mode)} {p : Prog M} {m : M}
    (h : p.Obeys d held) (hm : p.Takes m) : ∀ a ∈ held, d.rank a.1 ≤ d.rank m := by
  induction p generalizing held with
  | skip => exact hm.elim
  | seq p q ihp ihq | choice p q ihp ihq | ensure p q ihp ihq =>
    rcases hm with hm | hm
    · exact ihp h.1 hm
    · exact ihq h.2 hm
  | loop p ih => exact ih h hm
  | guard m' mode p ih =>
    rcases hm with rfl | hm
    · exact fun a ha => Nat.le_of_lt (h.1 a ha)
    · exact fun a ha => ih h.2 hm a (List.mem_cons_of_mem _ ha)
  | tryGuard m' p q ihp ihq =>
    rcases hm with hm | hm
    · exact fun a ha => ihp h.1 hm a (List.mem_cons_of_mem _ ha)
    · exact ihq h.2 hm
  | wait m' =>
    obtain ⟨rest, rfl, hbelow, -⟩ := h
    obtain rfl : m' = m := hm
    intro a ha
    rcases List.mem_cons.mp ha with rfl | ha
    · exact Nat.le_refl _
    · exact Nat.le_of_lt (hbelow a ha)

def Cmd.Takes (m : M) : Cmd M → Prop
  | .run p | .cleanup p => p.Takes m
  | .release _ _ => False
  | .reacquire m' => m' = m

/-- What holds of every thread. -/
structure Sound (prog : Op → Prog M) (th : Thread M Op) : Prop where
  obeying : Obeying d th.held th.todo
  takes : ∀ c ∈ th.todo, ∀ m, c.Takes m → ∃ op ∈ th.op, (prog op).Takes m

variable {d} {prog : Op → Prog M} {th th' : Thread M Op} {held : List (M × Mode)}
  {k : List (Cmd M)}

theorem Obeying.unwind (h : Obeying d held k) : Obeying d held (unwind k) := by
  induction k generalizing held with
  | nil => exact h
  | cons c k ih =>
    cases c with
    | run p => exact ih h.2
    | cleanup c => exact ⟨h.1, ih h.2⟩
    | release m mode =>
      obtain ⟨rest, hheld, hrest⟩ := h
      exact ⟨rest, hheld, ih hrest⟩
    | reacquire m => exact ⟨h.1, h.2.1, ih h.2.2⟩

theorem mem_unwind {c : Cmd M} (h : c ∈ unwind k) : c ∈ k := by
  induction k with
  | nil => exact h
  | cons a k ih =>
    cases a with
    | run p => exact List.mem_cons_of_mem _ (ih h)
    | cleanup | release | reacquire =>
      rcases List.mem_cons.mp h with rfl | h
      · exact List.mem_cons_self
      · exact List.mem_cons_of_mem _ (ih h)

/-- What a step still has to do is covered by what there was to do. -/
theorem Sound.of_step (h : Sound d prog th) (hop : th'.op = th.op)
    (hobeying : Obeying d th'.held th'.todo)
    (htakes : ∀ c ∈ th'.todo, ∀ m, c.Takes m → ∃ c' ∈ th.todo, c'.Takes m) :
    Sound d prog th' := by
  refine ⟨hobeying, fun c hc m hm => ?_⟩
  obtain ⟨c', hc', hm'⟩ := htakes c hc m hm
  rw [hop]
  exact h.takes c' hc' m hm'

/-- A command is replaced by some that take nothing else. -/
theorem takes_replace {c : Cmd M} (htodo : th.todo = c :: k) (cs : List (Cmd M))
    (hcs : ∀ a ∈ cs, ∀ m, a.Takes m → c.Takes m) :
    ∀ a ∈ cs ++ k, ∀ m, a.Takes m → ∃ c' ∈ th.todo, c'.Takes m := by
  intro a ha m hm
  rw [htodo]
  rcases List.mem_append.mp ha with ha | ha
  · exact ⟨c, List.mem_cons_self, hcs a ha m hm⟩
  · exact ⟨a, List.mem_cons_of_mem _ ha, hm⟩

section
variable [DecidableEq M]

theorem Sound.advance (h : Sound d prog th) {free : M → Mode → Prop}
    (hadv : Advance free th th') : Sound d prog th' := by
  have hobeying := h.obeying
  cases hadv with
  | skip htodo =>
    rw [htodo] at hobeying
    exact h.of_step rfl hobeying.2 (takes_replace htodo [] nofun)
  | seq htodo =>
    rw [htodo] at hobeying
    obtain ⟨⟨hp, hq⟩, hk⟩ := hobeying
    exact h.of_step rfl ⟨hp, hq, hk⟩
      (takes_replace htodo [_, _] (by simp +contextual [Cmd.Takes, Prog.Takes]))
  | left htodo =>
    rw [htodo] at hobeying
    exact h.of_step rfl ⟨hobeying.1.1, hobeying.2⟩
      (takes_replace htodo [_] (by simp +contextual [Cmd.Takes, Prog.Takes]))
  | right htodo =>
    rw [htodo] at hobeying
    exact h.of_step rfl ⟨hobeying.1.2, hobeying.2⟩
      (takes_replace htodo [_] (by simp +contextual [Cmd.Takes, Prog.Takes]))
  | again htodo =>
    rw [htodo] at hobeying
    exact h.of_step rfl ⟨hobeying.1, hobeying⟩
      (takes_replace htodo [_, _] (by simp +contextual [Cmd.Takes, Prog.Takes]))
  | leave htodo =>
    rw [htodo] at hobeying
    exact h.of_step rfl hobeying.2 (takes_replace htodo [] nofun)
  | lock htodo hfree =>
    rw [htodo] at hobeying
    obtain ⟨⟨-, hp⟩, hk⟩ := hobeying
    exact h.of_step rfl ⟨hp, _, rfl, hk⟩
      (takes_replace htodo [_, _] (by simp +contextual [Cmd.Takes, Prog.Takes]))
  | tryLock htodo hfree =>
    rw [htodo] at hobeying
    obtain ⟨⟨hp, -⟩, hk⟩ := hobeying
    exact h.of_step rfl ⟨hp, _, rfl, hk⟩
      (takes_replace htodo [_, _] (by simp +contextual [Cmd.Takes, Prog.Takes]))
  | busy htodo =>
    rw [htodo] at hobeying
    exact h.of_step rfl ⟨hobeying.1.2, hobeying.2⟩
      (takes_replace htodo [_] (by simp +contextual [Cmd.Takes, Prog.Takes]))
  | enter htodo =>
    rw [htodo] at hobeying
    obtain ⟨⟨hp, hc⟩, hk⟩ := hobeying
    exact h.of_step rfl ⟨hp, hc, hk⟩
      (takes_replace htodo [_, _] (by simp +contextual [Cmd.Takes, Prog.Takes]))
  | sleep htodo =>
    rw [htodo] at hobeying
    obtain ⟨⟨rest, hheld, hbelow, hwaits⟩, hk⟩ := hobeying
    refine h.of_step rfl ?_ (takes_replace htodo [_] (by simp [Cmd.Takes, Prog.Takes]))
    rw [hheld] at hk ⊢
    rw [List.erase_cons_head]
    exact ⟨hbelow, hwaits, hk⟩
  | wake hasleep => exact h.of_step rfl hobeying (fun c hc m hm => ⟨c, hc, hm⟩)
  | relock htodo hawake hfree =>
    rw [htodo] at hobeying
    exact h.of_step rfl hobeying.2.2 (takes_replace htodo [] nofun)
  | release htodo =>
    rw [htodo] at hobeying
    obtain ⟨rest, hheld, hk⟩ := hobeying
    refine h.of_step rfl ?_ (takes_replace htodo [] nofun)
    rw [hheld, List.erase_cons_head]
    exact hk
  | cleanup htodo =>
    rw [htodo] at hobeying
    exact h.of_step rfl hobeying (takes_replace htodo [_] (by simp [Cmd.Takes]))
  | raise htodo =>
    rw [htodo] at hobeying
    refine h.of_step rfl hobeying.2.unwind (fun c hc m hm => ⟨c, ?_, hm⟩)
    rw [htodo]
    exact List.mem_cons_of_mem _ (mem_unwind hc)

variable [DecidableEq T] {s s' : T → Thread M Op}

theorem sound_step (hprog : ∀ op, (prog op).Obeys d []) (h : ∀ t, Sound d prog (s t))
    (hs : Step prog s s') (t : T) : Sound d prog (s' t) := by
  have hupdate : ∀ {u th}, Sound d prog th → Sound d prog (Function.update s u th t) := by
    intro u th hth
    by_cases hu : t = u
    · subst hu
      rwa [Function.update_self]
    · rw [Function.update_of_ne hu]
      exact h t
  cases hs with
  | call u op hidle =>
    refine hupdate ⟨⟨hprog op, rfl⟩, fun c hc m hm => ⟨op, rfl, ?_⟩⟩
    obtain rfl := List.mem_singleton.mp hc
    exact hm
  | advance u hadv => exact hupdate ((h u).advance hadv)

/-- Whatever the threads do, each keeps to the discipline. -/
theorem Reachable.sound (hprog : ∀ op, (prog op).Obeys d []) (h : Reachable prog s) (t : T) :
    Sound d prog (s t) := by
  induction h generalizing t with
  | refl => exact ⟨rfl, nofun⟩
  | tail _ hs ih => exact sound_step hprog ih hs t

end

/-! ## What waits for what -/

theorem Wants.unique {m m' : M} {mode mode' : Mode} (h : Wants th m mode)
    (h' : Wants th m' mode') : m = m' := by
  cases h with
  | lock h =>
    cases h' with
    | lock h' => cases h.symm.trans h'; rfl
    | relock h' => cases h.symm.trans h'
  | relock h =>
    cases h' with
    | lock h' => cases h.symm.trans h'
    | relock h' => cases h.symm.trans h'; rfl

/-- A thread wants only what is above all it holds. -/
theorem Sound.below (h : Sound d prog th) {m : M} {mode : Mode} (hw : Wants th m mode) :
    Below d th.held m := by
  have hobeying := h.obeying
  cases hw with
  | lock htodo =>
    rw [htodo] at hobeying
    exact hobeying.1.1
  | relock htodo =>
    rw [htodo] at hobeying
    exact hobeying.1

theorem Sound.wants_takes (h : Sound d prog th) {m : M} {mode : Mode} (hw : Wants th m mode) :
    ∃ op ∈ th.op, (prog op).Takes m := by
  cases hw with
  | @lock _ p _ htodo =>
    exact h.takes (.run (.guard m mode p)) (by rw [htodo]; exact List.mem_cons_self) m (Or.inl rfl)
  | relock htodo =>
    exact h.takes (.reacquire m) (by rw [htodo]; exact List.mem_cons_self) m rfl

theorem Sound.waits_of_stalled (h : Sound d prog th) (hs : Stalled th) : d.waits th.held := by
  obtain ⟨m, k, htodo⟩ := hs
  have hobeying := h.obeying
  rw [htodo] at hobeying
  exact hobeying.2.1

section
variable {s : T → Thread M Op} {t u : T}

/-- Along a chain of waiting threads the locks wanted go up. -/
theorem rank_lt_of_chain (hsound : ∀ t, Sound d prog (s t))
    (h : Relation.TransGen (WaitsFor s) t u) {m : M} {mode : Mode} (hw : Wants (s u) m mode) :
    ∃ m' mode', Wants (s t) m' mode' ∧ d.rank m' < d.rank m := by
  induction h generalizing m mode with
  | single h =>
    obtain ⟨m', mode', hw', a, ha, rfl, -⟩ := h
    exact ⟨_, mode', hw', (hsound _).below hw a ha⟩
  | tail _ h ih =>
    obtain ⟨m', mode', hw', a, ha, rfl, -⟩ := h
    obtain ⟨m₀, mode₀, hw₀, hlt⟩ := ih hw'
    exact ⟨m₀, mode₀, hw₀, Nat.lt_trans hlt ((hsound _).below hw a ha)⟩

/-- Threads that keep to the discipline do not wait in a circle. -/
theorem no_cycle (hsound : ∀ t, Sound d prog (s t)) (t : T) :
    ¬Relation.TransGen (WaitsFor s) t t := by
  intro h
  obtain ⟨u, ⟨m, mode, hw, -⟩, -⟩ := Relation.TransGen.head'_iff.mp h
  obtain ⟨m', mode', hw', hlt⟩ := rank_lt_of_chain hsound h hw
  rw [hw'.unique hw] at hlt
  exact Nat.lt_irrefl _ hlt

/-- What a chain of waiting threads ends at holds a lock not below the one first wanted. -/
theorem rank_le_of_chain (hsound : ∀ t, Sound d prog (s t))
    (h : Relation.TransGen (WaitsFor s) t u) :
    ∃ m mode, Wants (s t) m mode ∧ ∃ a ∈ (s u).held, d.rank m ≤ d.rank a.1 := by
  obtain ⟨v, htv, hvu⟩ := Relation.TransGen.tail'_iff.mp h
  obtain ⟨m, mode, hw, a, ha, rfl, -⟩ := hvu
  rcases Relation.reflTransGen_iff_eq_or_transGen.mp htv with rfl | htv
  · exact ⟨_, mode, hw, a, ha, Nat.le_refl _⟩
  · obtain ⟨m', mode', hw', hlt⟩ := rank_lt_of_chain hsound htv hw
    exact ⟨m', mode', hw', a, ha, Nat.le_of_lt hlt⟩

/-- A chain of waiting threads that begins above the locks held through condition waits meets no
thread in such a wait, and none that waits for one. -/
theorem chain_avoids_stalled (hsound : ∀ t, Sound d prog (s t)) {floor : ℕ}
    (hwaits : ∀ held, d.waits held → ∀ a ∈ held, d.rank a.1 < floor)
    (hfloor : ∀ m mode, Wants (s t) m mode → floor ≤ d.rank m)
    (h : Relation.TransGen (WaitsFor s) t u) :
    ¬Stalled (s u) ∧ ∀ w, Stalled (s w) → ¬WaitsFor s u w := by
  have hlow : ∀ w, Relation.TransGen (WaitsFor s) t w → ¬Stalled (s w) := by
    intro w htw hstalled
    obtain ⟨m, mode, hw, a, ha, hle⟩ := rank_le_of_chain hsound htw
    have hlt := hwaits _ ((hsound w).waits_of_stalled hstalled) a ha
    have hm := hfloor m mode hw
    omega
  exact ⟨hlow u h, fun w hstalled huw => hlow w (h.tail huw) hstalled⟩

end

end ScopedLocks
end LsmKv
