import LsmKv.EngineWrite
import LsmKv.Sessions

/-!
# Sessions with what they were told

A run of sessions together with the records of the writes that were let in, oldest first.
-/

namespace LsmKv
namespace Engine

/-- The record of a write that is let in. -/
def accepted (e : Engine) : Call → Option Record
  | .put key value => (e.put key value).2.toOption.map (fun n => ⟨false, key, value, n⟩)
  | .remove key => (e.remove key).2.toOption.map (fun n => ⟨true, key, [], n⟩)
  | _ => none

def acceptedAll (e : Engine) : List Call → List Record
  | [] => []
  | c :: cs => (e.accepted c).toList ++ acceptedAll (e.perform c) cs

/-- A write is refused without a trace, or its record is what was let in. -/
theorem accepted_cases {e : Engine} (h : WalLog.Intact e.wal) (del : Bool) (key value : Bytes) :
    ((e.write del key value).1 = e ∧
      (e.write del key value).2.toOption.map (fun n => (⟨del, key, value, n⟩ : Record)) = none) ∨
    ∃ r, r.key = key ∧ r.value = value ∧ Writes e r (e.write del key value).1 ∧
      (e.write del key value).2.toOption.map (fun n => (⟨del, key, value, n⟩ : Record)) =
        some r := by
  rcases write_cases h del key value with ⟨x, heq⟩ | ⟨r, e', rfl, rfl, rfl, hw, heq⟩
  · rw [heq]
    exact .inl ⟨rfl, rfl⟩
  · rw [heq]
    exact .inr ⟨r, rfl, rfl, hw, rfl⟩

end Engine

namespace Host

/-- A step without a crash, with the records written so far. -/
inductive Moves (opens : Config → Prop) (ok : Engine → Call → Prop) :
    Host × List Record → Host × List Record → Prop
  | open {config d e rs} (hc : opens config) (h : Engine.open config d = .ok e) :
    Moves opens ok (.shut d, rs) (.up e, rs)
  | call {e c rs} (h : ok e c) :
    Moves opens ok (.up e, rs) (.up (e.perform c), rs ++ (e.accepted c).toList)
  | close {e rs} : Moves opens ok (.up e, rs) (.shut e.close.disk, rs)

/-- Sessions and what was written in them. -/
abbrev History (opens : Config → Prop) (ok : Engine → Call → Prop) :
    Host × List Record → Host × List Record → Prop := Relation.ReflTransGen (Moves opens ok)

variable {opens : Config → Prop} {ok : Engine → Call → Prop}

theorem Moves.proceeds {s s' : Host} {rs rs' : List Record}
    (h : Moves opens ok (s, rs) (s', rs')) : Proceeds opens ok s s' := by
  cases h with
  | «open» hc ho => exact .open hc ho
  | call hc => exact .call hc
  | close => exact .close

theorem History.invariant {P : Host → List Record → Prop}
    (hstep : ∀ s rs s' rs', P s rs → Moves opens ok (s, rs) (s', rs') → P s' rs')
    {s s' : Host} {rs rs' : List Record} (h : History opens ok (s, rs) (s', rs')) (hs : P s rs) :
    P s' rs' := by
  have hall : ∀ x y, History opens ok x y → P x.1 x.2 → P y.1 y.2 := by
    intro x y hxy hx
    induction hxy with
    | refl => exact hx
    | tail _ hlast ih => exact hstep _ _ _ _ ih hlast
  exact hall _ _ h hs

theorem history_session {config : Config} {d : Disk} {cs : List Call} {rs : List Record}
    (hc : opens config) (h : (Engine.open config d).map (fun _ => ()) = .ok ())
    (hcs : Engine.Allowed ok (opened config d) cs) :
    History opens ok (.shut d, rs)
      (.up ((opened config d).performAll cs), rs ++ (opened config d).acceptedAll cs) := by
  refine .head (.open hc (open_of_map h)) ?_
  generalize opened config d = e at hcs
  clear h
  induction cs generalizing e rs with
  | nil =>
    rw [Engine.acceptedAll, List.append_nil]
    exact .refl
  | cons c cs ih =>
    rw [Engine.acceptedAll, ← List.append_assoc]
    exact .head (.call hcs.1) (ih (e.perform c) hcs.2)

/-- What whole sessions write. -/
def written (d : Disk) : List (Config × List Call) → List Record
  | [] => []
  | (config, cs) :: sessions => (opened config d).acceptedAll cs ++
      written ((opened config d).performAll cs).close.disk sessions

theorem history_after {sessions : List (Config × List Call)} {d : Disk} {rs : List Record}
    (hopens : ∀ s ∈ sessions, opens s.1) (h : Lasts ok d sessions) :
    History opens ok (.shut d, rs) (.shut (after d sessions), rs ++ written d sessions) := by
  induction sessions generalizing d rs with
  | nil =>
    rw [written, List.append_nil]
    exact .refl
  | cons s sessions ih =>
    obtain ⟨config, cs⟩ := s
    obtain ⟨hopen, hcs, hrest⟩ := h
    obtain ⟨hconfig, hopens⟩ := List.forall_mem_cons.mp hopens
    rw [written, ← List.append_assoc]
    exact ((history_session hconfig hopen hcs).tail .close).trans (ih hopens hrest)

end Host
end LsmKv
