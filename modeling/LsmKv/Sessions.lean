import LsmKv.EngineTables
import Mathlib.Logic.Relation

/-!
# Runs of a store

Calls on an open store one after another, and sessions one after another on one directory. A
run can be asked to meet a condition at every call.
-/

namespace LsmKv

/-- A call on an open store. A flush is one round of `flush_pending`, or of the flush worker. -/
inductive Call where
  | put (key value : Bytes)
  | remove (key : Bytes)
  | flushOne (now : ℕ)
  | runCompaction (inputs : Option (List ℕ)) (now created : ℕ)

namespace Engine

def perform (e : Engine) : Call → Engine
  | .put key value => (e.put key value).1
  | .remove key => (e.remove key).1
  | .flushOne now => (e.flushOne now).1
  | .runCompaction inputs now created => (e.runCompaction inputs now created).1

def Next (ok : Engine → Call → Prop) (e e' : Engine) : Prop := ∃ c, ok e c ∧ e' = e.perform c

/-- Calls that each meet the condition where they come. -/
abbrev Runs (ok : Engine → Call → Prop) : Engine → Engine → Prop := Relation.ReflTransGen (Next ok)

/-- A write finds a sequence number of 64 bits to hand out. -/
def Counted (e : Engine) : Call → Prop
  | .put _ _ | .remove _ => e.wal.lastSeqno + 1 < 2 ^ 64
  | .flushOne _ | .runCompaction .. => True

/-- A write leaves the log with segment numbers of fewer than twelve digits, which the names of
its files have room for. -/
def Numbered (e : Engine) : Call → Prop
  | .put _ _ | .remove _ => e.wal.activeId + 2 < 10 ^ 11
  | .flushOne _ | .runCompaction .. => True

/-- A table gets an id of at most fifteen digits, so that no other table has the name of its
file. -/
def Named (e : Engine) : Call → Prop
  | .put _ _ | .remove _ => True
  | .flushOne _ | .runCompaction .. => e.manifest.nextSstId < 10 ^ 15

def InRange (e : Engine) (c : Call) : Prop := e.Counted c ∧ e.Numbered c ∧ e.Named c

instance (e : Engine) : (c : Call) → Decidable (e.Counted c)
  | .put _ _ | .remove _ => inferInstanceAs (Decidable (_ < _))
  | .flushOne _ | .runCompaction .. => inferInstanceAs (Decidable True)

instance (e : Engine) : (c : Call) → Decidable (e.Numbered c)
  | .put _ _ | .remove _ => inferInstanceAs (Decidable (_ < _))
  | .flushOne _ | .runCompaction .. => inferInstanceAs (Decidable True)

instance (e : Engine) : (c : Call) → Decidable (e.Named c)
  | .put _ _ | .remove _ => inferInstanceAs (Decidable True)
  | .flushOne _ | .runCompaction .. => inferInstanceAs (Decidable (_ < _))

instance (e : Engine) (c : Call) : Decidable (e.InRange c) :=
  inferInstanceAs (Decidable (_ ∧ _ ∧ _))

def performAll (e : Engine) (cs : List Call) : Engine := cs.foldl perform e

def Allowed (ok : Engine → Call → Prop) : Engine → List Call → Prop
  | _, [] => True
  | e, c :: cs => ok e c ∧ Allowed ok (e.perform c) cs

def decidableAllowed {ok : Engine → Call → Prop} [∀ e c, Decidable (ok e c)] :
    (e : Engine) → (cs : List Call) → Decidable (Allowed ok e cs)
  | _, [] => .isTrue trivial
  | e, c :: cs => @instDecidableAnd (ok e c) (Allowed ok (e.perform c) cs) inferInstance
      (decidableAllowed (e.perform c) cs)

instance {ok : Engine → Call → Prop} [∀ e c, Decidable (ok e c)] (e : Engine) (cs : List Call) :
    Decidable (Allowed ok e cs) := decidableAllowed e cs

theorem runs_performAll {ok : Engine → Call → Prop} {e : Engine} {cs : List Call}
    (h : Allowed ok e cs) : Runs ok e (e.performAll cs) := by
  induction cs generalizing e with
  | nil => exact .refl
  | cons c cs ih => exact .head ⟨c, h.1, rfl⟩ (ih h.2)

/-- What every call keeps, every run keeps. -/
theorem Runs.invariant {ok : Engine → Call → Prop} {P : Engine → Prop}
    (hstep : ∀ e c, P e → ok e c → P (e.perform c)) {e e' : Engine} (h : Runs ok e e')
    (he : P e) : P e' := by
  induction h with
  | refl => exact he
  | tail _ hlast ih =>
    obtain ⟨c, hc, rfl⟩ := hlast
    exact hstep _ c ih hc

/-! ## `flush_pending` is a run of flushes and compactions -/

/-- Flushes and compactions. -/
def Background (_ : Engine) : Call → Prop
  | .flushOne _ | .runCompaction .. => True
  | _ => False

theorem runs_flushAll (clock : ℕ → ℕ) (rounds : ℕ) (e : Engine) :
    Runs Background e (e.flushAll clock rounds).1 := by
  induction rounds generalizing e with
  | zero => exact .refl
  | succ rounds ih =>
    have hone : Runs Background e (e.flushOne (clock rounds)).1 :=
      .single ⟨.flushOne (clock rounds), trivial, rfl⟩
    rw [flushAll]
    split
    · exact .refl
    · rcases hflush : e.flushOne (clock rounds) with ⟨e₁, x | _ | _⟩ <;> rw [hflush] at hone
      · exact hone
      · exact hone
      · have hrest := ih e₁
        rcases hall : e₁.flushAll clock rounds with ⟨e₂, x | rest⟩
        · rw [hall] at hrest
          simp only [hall]
          exact hone.trans hrest
        · rw [hall] at hrest
          simp only [hall]
          exact hone.trans hrest

theorem runs_autoCompactFrom (clock : ℕ → ℕ × ℕ) (rounds : ℕ) (previous : Option ℕ)
    (e : Engine) : Runs Background e (autoCompactFrom clock rounds previous e).1 := by
  induction rounds generalizing previous e with
  | zero => exact .refl
  | succ rounds ih =>
    have hone : Runs Background e
        (e.runCompaction none (clock rounds).1 (clock rounds).2).1 :=
      .single ⟨.runCompaction none (clock rounds).1 (clock rounds).2, trivial, rfl⟩
    rw [autoCompactFrom]
    split
    · rcases hrun : e.runCompaction none (clock rounds).1 (clock rounds).2 with
        ⟨e₁, x | _ | _⟩ <;> rw [hrun] at hone
      · exact hone
      · exact hone
      · exact hone.trans (ih _ e₁)
    · exact .refl

theorem runs_flushPending (flush_clock : ℕ → ℕ) (compact_clock : ℕ → ℕ × ℕ) (e : Engine) :
    Runs Background e (e.flushPending flush_clock compact_clock).1 := by
  rw [flushPending]
  split
  · exact .refl
  have hall := runs_flushAll flush_clock e.immutables.length e
  rcases hflush : e.flushAll flush_clock e.immutables.length with ⟨e₁, x | results⟩
  · rw [hflush] at hall
    exact hall
  · rw [hflush] at hall
    have hauto : Runs Background e₁ (e₁.maybeAutoCompact compact_clock).1 := by
      rw [maybeAutoCompact]
      split
      · exact .refl
      · exact runs_autoCompactFrom _ _ _ _
    rcases hcompact : e₁.maybeAutoCompact compact_clock with ⟨e₂, x | u⟩
    · rw [hcompact] at hauto
      simp only [hcompact]
      exact hall.trans hauto
    · rw [hcompact] at hauto
      simp only [hcompact]
      exact hall.trans hauto

end Engine

/-! ## Sessions on one directory -/

/-- A directory at rest, or an open store on it. -/
inductive Host where
  | shut (d : Disk)
  | up (e : Engine)

/-- What a crash on the way from `d₁` to `d₂` may leave: one of the two manifests with the files
of its tables, and of the log nothing that neither held. -/
structure Disk.Crashes (d₁ d₂ d : Disk) : Prop where
  tables : ∃ s ∈ [d₁, d₂], d.manifest = s.manifest ∧
    ∀ t ∈ s.storedTables, d.files.find? t.id = s.files.find? t.id ∧
      (t.id ∈ d.misindexed ↔ t.id ∈ s.misindexed)
  misindexed : ∀ id ∈ d.misindexed, id ∈ d₁.misindexed ∨ id ∈ d₂.misindexed
  log : ∀ r ∈ WalLog.records d.wal,
    r ∈ WalLog.records d₁.wal ∨ r ∈ WalLog.records d₂.wal

namespace Host

/-- A session opens with settings that `opens` allows; its calls, also one a crash comes into,
meet `ok`. -/
inductive Step (opens : Config → Prop) (ok : Engine → Call → Prop) : Host → Host → Prop
  | open {config d e} (hc : opens config) (h : Engine.open config d = .ok e) :
    Step opens ok (.shut d) (.up e)
  | call {e c} (h : ok e c) : Step opens ok (.up e) (.up (e.perform c))
  | close {e} : Step opens ok (.up e) (.shut e.close.disk)
  | crash {e c d} (h : ok e c) (hd : Disk.Crashes e.disk (e.perform c).disk d) :
    Step opens ok (.up e) (.shut d)
  | crashOpen {d d'} (hd : Disk.Crashes d d d') : Step opens ok (.shut d) (.shut d')

abbrev Runs (opens : Config → Prop) (ok : Engine → Call → Prop) : Host → Host → Prop :=
  Relation.ReflTransGen (Step opens ok)

/-- A step that is no crash. -/
inductive Proceeds (opens : Config → Prop) (ok : Engine → Call → Prop) : Host → Host → Prop
  | open {config d e} (hc : opens config) (h : Engine.open config d = .ok e) :
    Proceeds opens ok (.shut d) (.up e)
  | call {e c} (h : ok e c) : Proceeds opens ok (.up e) (.up (e.perform c))
  | close {e} : Proceeds opens ok (.up e) (.shut e.close.disk)

/-- Sessions one after another, all of them closed but perhaps the last. -/
abbrev Sessions (opens : Config → Prop) (ok : Engine → Call → Prop) : Host → Host → Prop :=
  Relation.ReflTransGen (Proceeds opens ok)

variable {opens : Config → Prop} {ok : Engine → Call → Prop}

theorem Proceeds.step {s s' : Host} (h : Proceeds opens ok s s') : Step opens ok s s' := by
  cases h with
  | «open» hc ho => exact .open hc ho
  | call hc => exact .call hc
  | close => exact .close

theorem Sessions.runs {s s' : Host} (h : Sessions opens ok s s') : Runs opens ok s s' :=
  Relation.ReflTransGen.mono (fun _ _ hs => hs.step) _ _ h

/-- A directory is a step away from the store it opens as, and every call from the next. -/
theorem sessions_session {config : Config} {d : Disk} {e : Engine} {cs : List Call}
    (hc : opens config) (h : Engine.open config d = .ok e) (hcs : Engine.Allowed ok e cs) :
    Sessions opens ok (.shut d) (.up (e.performAll cs)) := by
  refine .head (.open hc h) ?_
  clear h
  induction cs generalizing e with
  | nil => exact .refl
  | cons c cs ih => exact .head (.call hcs.1) (ih hcs.2)

theorem runs_session {config : Config} {d : Disk} {e : Engine} {cs : List Call}
    (hc : opens config) (h : Engine.open config d = .ok e) (hcs : Engine.Allowed ok e cs) :
    Runs opens ok (.shut d) (.up (e.performAll cs)) := (sessions_session hc h hcs).runs

/-- The store that a directory opens as. -/
def opened (config : Config) (d : Disk) : Engine := (Engine.loaded config d).recover

/-- What a directory holds after whole sessions, each with its settings and its calls. -/
def after (d : Disk) : List (Config × List Call) → Disk
  | [] => d
  | (config, cs) :: sessions => after ((opened config d).performAll cs).close.disk sessions

/-- Every session opens and its calls meet the condition. -/
def Lasts (ok : Engine → Call → Prop) (d : Disk) : List (Config × List Call) → Prop
  | [] => True
  | (config, cs) :: sessions =>
    ((Engine.open config d).map (fun _ => ()) = .ok ()) ∧
      Engine.Allowed ok (opened config d) cs ∧
      Lasts ok ((opened config d).performAll cs).close.disk sessions

def decidableLasts {ok : Engine → Call → Prop} [∀ e c, Decidable (ok e c)] :
    (d : Disk) → (sessions : List (Config × List Call)) → Decidable (Lasts ok d sessions)
  | _, [] => .isTrue trivial
  | d, (config, cs) :: sessions =>
    have : Decidable (Lasts ok ((opened config d).performAll cs).close.disk sessions) :=
      decidableLasts _ sessions
    inferInstanceAs (Decidable (_ ∧ _ ∧ _))

instance {ok : Engine → Call → Prop} [∀ e c, Decidable (ok e c)] (d : Disk)
    (sessions : List (Config × List Call)) : Decidable (Lasts ok d sessions) :=
  decidableLasts d sessions

theorem open_of_map {config : Config} {d : Disk}
    (h : (Engine.open config d).map (fun _ => ()) = .ok ()) :
    Engine.open config d = .ok (opened config d) := by
  rcases hopen : Engine.open config d with x | e
  · rw [hopen] at h
    cases h
  · rw [eq_of_open hopen]
    rfl

theorem sessions_after {sessions : List (Config × List Call)} {d : Disk}
    (hopens : ∀ s ∈ sessions, opens s.1) (h : Lasts ok d sessions) :
    Sessions opens ok (.shut d) (.shut (after d sessions)) := by
  induction sessions generalizing d with
  | nil => exact .refl
  | cons s sessions ih =>
    obtain ⟨config, cs⟩ := s
    obtain ⟨hopen, hcs, hrest⟩ := h
    obtain ⟨hconfig, hopens⟩ := List.forall_mem_cons.mp hopens
    have hsession := sessions_session hconfig (open_of_map hopen) hcs
    exact (hsession.tail .close).trans (ih hopens hrest)

theorem runs_sessions {sessions : List (Config × List Call)} {d : Disk}
    (hopens : ∀ s ∈ sessions, opens s.1) (h : Lasts ok d sessions) :
    Runs opens ok (.shut d) (.shut (after d sessions)) := (sessions_after hopens h).runs

/-- What every step keeps, every run keeps. -/
theorem Runs.invariant {P : Host → Prop} (hstep : ∀ s s', P s → Step opens ok s s' → P s')
    {s s' : Host} (h : Runs opens ok s s') (hs : P s) : P s' := by
  induction h with
  | refl => exact hs
  | tail _ hlast ih => exact hstep _ _ ih hlast

theorem Sessions.invariant {P : Host → Prop}
    (hstep : ∀ s s', P s → Proceeds opens ok s s' → P s') {s s' : Host}
    (h : Sessions opens ok s s') (hs : P s) : P s' := by
  induction h with
  | refl => exact hs
  | tail _ hlast ih => exact hstep _ _ ih hlast

end Host
end LsmKv
