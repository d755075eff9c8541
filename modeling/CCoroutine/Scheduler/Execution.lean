import CCoroutine.Scheduler.Definitions
import CCoroutine.Support.Runs

/-!
# Scheduler — Execution

The step relations are computable: whether a step is legal is decidable, and the state it leads
to is a function.  A concrete program is run by `Support.exec`, and the states it passes through
are states of a run.
-/

namespace CCoroutine
open Support (exec Reachable Run)

namespace State

variable {Fn Arg : Type} {s : State Fn Arg} {a : Act Fn Arg}

/-- The owner of the code being executed, when it is not the scheduler loop. -/
def caller (s : State Fn Arg) : Option (Option Addr) :=
  match s.ctl with
  | .user who => some who
  | .loop _ => none

theorem caller_isSome_iff : s.caller.isSome = true ↔ ∃ who, s.ctl = .user who := by
  unfold caller
  cases s.ctl <;> simp

theorem caller_isNone_iff : s.caller.isSome = false ↔ ∃ who, s.ctl = .loop who := by
  unfold caller
  cases s.ctl <;> simp

theorem caller_join_isSome_iff : s.caller.join.isSome = true ↔ ∃ c, s.ctl = .user (some c) := by
  unfold caller
  cases hc : s.ctl with
  | user who => cases who <;> simp
  | loop who => simp

instance decidableUser : Decidable (∃ who, s.ctl = .user who) :=
  decidable_of_iff _ caller_isSome_iff

instance decidableLoop : Decidable (∃ who, s.ctl = .loop who) :=
  decidable_of_iff _ caller_isNone_iff

instance decidableBody : Decidable (∃ c, s.ctl = .user (some c)) :=
  decidable_of_iff _ caller_join_isSome_iff

/-- `o` is a handle that satisfies `p`. -/
instance decidableHandle (o : Option Addr) (p : Addr → Prop) [DecidablePred p] :
    Decidable (∃ x, o = some x ∧ p x) :=
  match o with
  | none => isFalse fun ⟨_, h, _⟩ => nomatch h
  | some x => decidable_of_iff (p x) ⟨fun h => ⟨x, rfl, h⟩, fun ⟨_, e, h⟩ => Option.some.inj e ▸ h⟩

instance decidableFnNull (fn : Option Fn) : Decidable (fn ≠ none) :=
  match fn with
  | none => isFalse fun h => h rfl
  | some f => isTrue (Option.some_ne_none f)

instance decidableLegal (s : State Fn Arg) (a : Act Fn Arg) : Decidable (s.Legal a) :=
  match a with
  | .create _ _ _ .callocFails | .create _ _ _ (.mallocFails _) | .create _ _ _ (.ok _ _) =>
      inferInstanceAs (Decidable (_ ∧ _ ∧ _))
  | .free _ | .await _ | .state _ => inferInstanceAs (Decidable (_ ∧ _))
  | .yield | .ret => decidableBody
  | .run | .id => decidableUser
  | .sched => decidableLoop

instance decidableFromMain (s : State Fn Arg) (a : Act Fn Arg) : Decidable (s.FromMain a) :=
  match a with
  | .run => inferInstanceAs (Decidable (s.ctl = .user none))
  | .create _ _ _ _ | .free _ | .yield | .await _ | .state _ | .id | .ret | .sched => isTrue trivial

/-- The state after the step `a`, when it is legal and does not fault. -/
def next (s : State Fn Arg) (a : Act Fn Arg) : Option (State Fn Arg) :=
  if s.Legal a then (s.step a).toOption else none

/-- The same, when `co_run` is called from main only. -/
def nextM (s : State Fn Arg) (a : Act Fn Arg) : Option (State Fn Arg) :=
  if s.FromMain a then s.next a else none

theorem step_of_next {s s' : State Fn Arg} {a : Act Fn Arg} (h : s.next a = some s') :
    Step s a s' := by
  unfold next at h
  split at h
  · next hl => exact ⟨hl, Support.toOption_eq_some.mp h⟩
  · cases h

theorem stepM_of_nextM {s s' : State Fn Arg} {a : Act Fn Arg} (h : s.nextM a = some s') :
    StepM s a s' := by
  unfold nextM at h
  split at h
  · next hm => exact ⟨step_of_next h, hm⟩
  · cases h

/-- The state after the steps `as` from the start, the start itself when they are not enabled. -/
def after (as : List (Act Fn Arg)) : State Fn Arg := (exec nextM init as).getD init

theorem reachable_after (as : List (Act Fn Arg))
    (h : (exec nextM (init : State Fn Arg) as).isSome = true) : Reachable StepM init (after as) :=
  Support.reachable_of_exec (fun _ _ _ => stepM_of_nextM) h

/-- The run through the steps `as`. -/
def runOf (as : List (Act Fn Arg)) (h : (exec nextM (init : State Fn Arg) as).isSome = true) :
    Run StepM (init : State Fn Arg) :=
  .ofExec (fun _ _ _ => stepM_of_nextM) init as .id h

end State

end CCoroutine
