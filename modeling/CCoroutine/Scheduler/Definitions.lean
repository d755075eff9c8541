import CCoroutine.Support.Ring

/-!
# Scheduler — Definitions

`src/coroutine.c`: the coroutine record, the scheduler globals `S`, the run-queue helpers and the
public API, function by function.  A C function that writes `S` or a record is a function on
`State`; one that asserts returns `Except Fault`.

A saved context is modelled by where it continues (`Ctx`): `co_ctx_switch(from, to)` stores the
place it was called from and continues at the place stored in `to` (`State.switchTo`).  Code runs
on main's stack or on the private stack of a coroutine, `Option Addr` either way.

A function that may switch contexts is written once, up to its switch or its return (`Outcome`):
`coYieldUpTo` is `co_yield` as far as its own code goes, and `coYield` goes on wherever the switch
leads (`Outcome.finish`).

The heap is `mem` (the contents of the record at an address) with `live` (the record is allocated
and not released).  `co_free` leaves the contents where they are; `calloc` overwrites them.
`released` is a history variable: the contents `co_free` released, by coroutine id.
-/

namespace CCoroutine
open Support (Ring)

/-- The address of a coroutine record or of a stack; `NULL` is `none : Option Addr`. -/
abbrev Addr := ℕ

def defaultStackSize : ℕ := 256 * 1024

def maxCoroutines : ℕ := 512

def queueCap : ℕ := maxCoroutines * 2

/-- `CoState`. -/
inductive CoState where
  | ready
  | running
  | waiting
  | done
  deriving DecidableEq, Repr

/-- Where a saved context continues.  `who` is the stack it lies on. -/
inductive Ctx where
  /-- All zero: never saved. -/
  | zero
  /-- The frame `co_create` builds: `co_trampoline`, then `co_entry(co)`. -/
  | trampoline (co : Addr)
  | inYield (who : Option Addr)
  | inAwait (who : Option Addr) (other : Addr)
  /-- In `resume`, called by the `co_run` that the code on `who` called. -/
  | inResume (who : Option Addr)
  /-- In the last switch of `co_entry`, just before `abort()`. -/
  | inEntry (who : Option Addr)
  deriving DecidableEq, Repr

/-- The code being executed. -/
inductive Ctl (α : Type) where
  /-- Code of main (`none`) or of a coroutine body, between two API calls. -/
  | user (who : Option α)
  /-- The loop of the `co_run` that this code called, before its `q_pop`. -/
  | loop (who : Option α)
  deriving DecidableEq, Repr

/-- A failed assertion, or another way for the program to stop. -/
inductive Fault where
  /-- "fn must not be NULL" -/
  | fnNull
  /-- "too many coroutines" -/
  | tooManyCoroutines
  /-- "run-queue overflow" -/
  | queueOverflow
  /-- "NULL coroutine" -/
  | freeNull
  /-- "co_free on non-finished coroutine" -/
  | freeUnfinished
  /-- `assert(co->state == CO_READY)` in `co_run` -/
  | notReady
  /-- "co_yield called outside a coroutine" -/
  | yieldOutside
  /-- "co_await on NULL" -/
  | awaitNull
  /-- "co_await called outside a coroutine" -/
  | awaitOutside
  /-- `assert(co)` in `co_state` -/
  | stateNull
  /-- `abort()` in `co_entry` -/
  | aborted
  /-- A switch to a context whose frame is gone, or a call through `NULL`. -/
  | wildJump
  /-- The code being executed cannot do this. -/
  | disabled
  deriving DecidableEq, Repr

/-- `struct Coroutine`.  `Fn` and `Arg` are what `fn` and `arg` point to. -/
structure Coroutine (Fn Arg : Type) where
  id : ℕ
  state : CoState
  fn : Option Fn
  arg : Option Arg
  stack : Option Addr
  stackSize : ℕ
  awaiting : Option Addr
  ctx : Ctx

/-- The record `calloc` returns. -/
def Coroutine.zeroed {Fn Arg : Type} : Coroutine Fn Arg where
  id := 0
  state := .ready
  fn := none
  arg := none
  stack := none
  stackSize := 0
  awaiting := none
  ctx := .zero

/-- The scheduler globals `S`, the heap and the control point. -/
structure State (Fn Arg : Type) where
  /-- `S.all[0 .. S.count)`. -/
  all : List Addr
  /-- `S.queue`, `S.q_head`, `S.q_tail`, `S.q_size`. -/
  q : Ring Addr queueCap
  running : Option Addr
  mainCtx : Ctx
  mem : Addr → Coroutine Fn Arg
  live : Addr → Bool
  ctl : Ctl Addr
  /-- The stacks that hold a `co_run` frame, the last called first. -/
  frames : List (Option Addr)
  released : ℕ → Option (Coroutine Fn Arg)

/-- How a function of the API ends, or is suspended. -/
inductive Outcome (Fn Arg : Type) where
  | returns (s : State Fn Arg)
  /-- The contexts are switched, from that of `src` to that of `dst`, where `none` is `S.main_ctx`;
  the caller will continue at `pt`. -/
  | switches (s : State Fn Arg) (src dst : Option Addr) (pt : Ctx)

/-- What the two allocations of one `co_create` return. -/
inductive Alloc where
  | callocFails
  /-- `calloc` returns `co`, `malloc` returns `NULL`. -/
  | mallocFails (co : Addr)
  | ok (co stack : Addr)
  deriving DecidableEq, Repr

namespace State

variable {Fn Arg : Type}

/-- Program start: `S` is zero, main executes. -/
def init : State Fn Arg where
  all := []
  q := .empty 0 (by decide)
  running := none
  mainCtx := .zero
  mem := fun _ => .zeroed
  live := fun _ => false
  ctl := .user none
  frames := []
  released := fun _ => none

/-- The entries of the run-queue, from `q_head` on. -/
def runQueue (s : State Fn Arg) : List Addr := s.q.toList

/-- Write fields of the record at `co`. -/
def modCo (s : State Fn Arg) (co : Addr) (f : Coroutine Fn Arg → Coroutine Fn Arg) :
    State Fn Arg :=
  { s with mem := Function.update s.mem co (f (s.mem co)) }

def qPush (s : State Fn Arg) (co : Addr) : Except Fault (State Fn Arg) :=
  if h : s.q.size < queueCap then .ok { s with q := s.q.push co h }
  else .error .queueOverflow

def qPop (s : State Fn Arg) : Option Addr × State Fn Arg :=
  (s.q.pop.1, { s with q := s.q.pop.2 })

/-- The loop of `wakeup_waiters` over the remaining slots of `S.all`. -/
def wakeupLoop (done : Addr) : List Addr → State Fn Arg → Except Fault (State Fn Arg)
  | [], s => .ok s
  | co :: rest, s =>
      if (s.mem co).state = .waiting ∧ (s.mem co).awaiting = some done then do
        let s ← (s.modCo co fun r => { r with state := .ready, awaiting := none }).qPush co
        wakeupLoop done rest s
      else wakeupLoop done rest s

def wakeupWaiters (s : State Fn Arg) (done : Addr) : Except Fault (State Fn Arg) :=
  wakeupLoop done s.all s

/-- `co_entry` up to the call `co->fn(co->arg)`. -/
def coEntry (s : State Fn Arg) (co : Addr) : Except Fault (State Fn Arg) :=
  match (s.mem co).fn with
  | none => .error .wildJump
  | some _ => .ok { s with ctl := .user (some co) }

/-- The restoring half of `co_ctx_switch`: continue where `ctx` was saved.  Back in `resume`,
the next statement is `S.running = NULL`. -/
def switchTo (s : State Fn Arg) (ctx : Ctx) : Except Fault (State Fn Arg) :=
  match ctx with
  | .zero => .error .wildJump
  | .trampoline co => s.coEntry co
  | .inYield who => .ok { s with ctl := .user who }
  | .inAwait who _ => .ok { s with ctl := .user who }
  | .inResume who =>
      if who ∈ s.frames then .ok { s with running := none, ctl := .loop who }
      else .error .wildJump
  | .inEntry _ => .error .aborted

/-- The saved context of a stack. -/
def ctxOf (s : State Fn Arg) : Option Addr → Ctx
  | none => s.mainCtx
  | some co => (s.mem co).ctx

/-- The saving half of `co_ctx_switch`: `pt` becomes the context of a stack. -/
def save (s : State Fn Arg) (i : Option Addr) (pt : Ctx) : State Fn Arg :=
  match i with
  | none => { s with mainCtx := pt }
  | some co => s.modCo co fun r => { r with ctx := pt }

end State

/-- The return, or the switch of contexts: save, and continue where the target was saved. -/
def Outcome.finish {Fn Arg : Type} : Outcome Fn Arg → Except Fault (State Fn Arg)
  | .returns s => .ok s
  | .switches s src dst pt => (s.save src pt).switchTo ((s.save src pt).ctxOf dst)

namespace State

variable {Fn Arg : Type}

/-- `co_entry` and `co_entry_uc` after `fn` has returned, on the stack of `co`. -/
def coEntryRetUpTo (s : State Fn Arg) (co : Addr) : Except Fault (Outcome Fn Arg) := do
  let s ← (s.modCo co fun r => { r with state := .done }).wakeupWaiters co
  .ok (.switches s (some co) none (.inEntry (some co)))

def coEntryRet (s : State Fn Arg) (co : Addr) : Except Fault (State Fn Arg) :=
  (s.coEntryRetUpTo co).bind Outcome.finish

/-- The record `co_create` fills in. -/
def newCo (s : State Fn Arg) (fn : Fn) (arg : Option Arg) (stackSize : ℕ) (co stack : Addr) :
    Coroutine Fn Arg where
  id := s.all.length + 1
  state := .ready
  fn := some fn
  arg := arg
  stack := some stack
  stackSize := if stackSize = 0 then defaultStackSize else stackSize
  awaiting := none
  ctx := .trampoline co

def coCreate (s : State Fn Arg) (fn : Option Fn) (arg : Option Arg) (stackSize : ℕ)
    (m : Alloc) : Except Fault (Option Addr × State Fn Arg) :=
  match fn with
  | none => .error .fnNull
  | some fn =>
      if s.all.length < maxCoroutines then
        match m with
        | .callocFails => .ok (none, s)
        -- the record is zeroed by `calloc` and released again
        | .mallocFails co => .ok (none, s.modCo co fun _ => .zeroed)
        | .ok co stack => do
            let r := s.newCo fn arg stackSize co stack
            let s := s.modCo co fun _ => r
            let s := { s with live := Function.update s.live co true, all := s.all ++ [co] }
            let s ← s.qPush co
            .ok (some co, s)
      else .error .tooManyCoroutines

def coFree (s : State Fn Arg) (co : Option Addr) : Except Fault (State Fn Arg) :=
  match co with
  | none => .error .freeNull
  | some co =>
      if (s.mem co).state = .done then
        .ok { s with
          live := Function.update s.live co false
          released := Function.update s.released (s.mem co).id (some (s.mem co)) }
      else .error .freeUnfinished

/-- `resume(next)`, called by the `co_run` loop on the stack `who`. -/
def resumeUpTo (s : State Fn Arg) (who : Option Addr) (next : Addr) : Outcome Fn Arg :=
  let s := s.modCo next fun r => { r with state := .running }
  .switches { s with running := some next } none (some next) (.inResume who)

/-- The call of `co_run`, up to its loop. -/
def coRun (s : State Fn Arg) (who : Option Addr) : State Fn Arg :=
  { s with ctl := .loop who, frames := who :: s.frames }

/-- One evaluation of `co_run`'s loop condition, and the loop body up to the switch or the
return of `co_run`. -/
def runLoopUpTo (s : State Fn Arg) (who : Option Addr) : Except Fault (Outcome Fn Arg) :=
  match s.qPop with
  | (none, s) => .ok (.returns { s with ctl := .user who, frames := s.frames.erase who })
  | (some co, s) =>
      if (s.mem co).state = .ready then .ok (s.resumeUpTo who co) else .error .notReady

def runLoop (s : State Fn Arg) (who : Option Addr) : Except Fault (State Fn Arg) :=
  (s.runLoopUpTo who).bind Outcome.finish

def coYieldUpTo (s : State Fn Arg) (who : Option Addr) : Except Fault (Outcome Fn Arg) :=
  match s.running with
  | none => .error .yieldOutside
  | some co => do
      let s ← (s.modCo co fun r => { r with state := .ready }).qPush co
      .ok (.switches s (some co) none (.inYield who))

def coYield (s : State Fn Arg) (who : Option Addr) : Except Fault (State Fn Arg) :=
  (s.coYieldUpTo who).bind Outcome.finish

def coAwaitUpTo (s : State Fn Arg) (who : Option Addr) (other : Option Addr) :
    Except Fault (Outcome Fn Arg) :=
  match other with
  | none => .error .awaitNull
  | some other =>
      if (s.mem other).state = .done then .ok (.returns s)
      else match s.running with
        | none => .error .awaitOutside
        | some co =>
            let s := s.modCo co fun r => { r with state := .waiting, awaiting := some other }
            .ok (.switches s (some co) none (.inAwait who other))

def coAwait (s : State Fn Arg) (who : Option Addr) (other : Option Addr) :
    Except Fault (State Fn Arg) :=
  (s.coAwaitUpTo who other).bind Outcome.finish

def coId (s : State Fn Arg) : ℕ :=
  match s.running with
  | none => 0
  | some co => (s.mem co).id

def coState (s : State Fn Arg) (co : Option Addr) : Except Fault CoState :=
  match co with
  | none => .error .stateNull
  | some co => .ok (s.mem co).state

end State

/-! ### The machine -/

/-- One call of the API by the code being executed, with what the allocator returns to it; the
return of a body; or one turn of the scheduler loop. -/
inductive Act (Fn Arg : Type) where
  | create (fn : Option Fn) (arg : Option Arg) (stackSize : ℕ) (m : Alloc)
  | free (co : Option Addr)
  | yield
  | await (other : Option Addr)
  | run
  | state (co : Option Addr)
  | id
  | ret
  | sched

namespace State

variable {Fn Arg : Type}

/-- What the code on the stack `who` does, up to a switch of contexts or to its return. -/
def callUpTo (s : State Fn Arg) (who : Option Addr) : Act Fn Arg → Except Fault (Outcome Fn Arg)
  | .create fn arg stackSize m => (s.coCreate fn arg stackSize m).map fun r => .returns r.2
  | .free co => (s.coFree co).map .returns
  | .yield => s.coYieldUpTo who
  | .await other => s.coAwaitUpTo who other
  | .run => .ok (.returns (s.coRun who))
  | .state co => (s.coState co).map fun _ => .returns s
  | .id => .ok (.returns s)
  | .ret => match who with
    | none => .error .disabled
    | some co => s.coEntryRetUpTo co
  | .sched => .error .disabled

def call (s : State Fn Arg) (who : Option Addr) (a : Act Fn Arg) : Except Fault (State Fn Arg) :=
  (s.callUpTo who a).bind Outcome.finish

def stepUpTo (s : State Fn Arg) (a : Act Fn Arg) : Except Fault (Outcome Fn Arg) :=
  match s.ctl, a with
  | .loop who, .sched => s.runLoopUpTo who
  | .loop _, _ => .error .disabled
  | .user who, a => s.callUpTo who a

/-- One step of the machine. -/
def step (s : State Fn Arg) (a : Act Fn Arg) : Except Fault (State Fn Arg) :=
  (s.stepUpTo a).bind Outcome.finish

/-- What the API asks of its callers, and `calloc` of itself: `fn` is not `NULL`; a handle is an
unfreed coroutine, and done when it is freed; only a body yields, awaits and returns; an address
`calloc` returns is not in use. -/
def Legal (s : State Fn Arg) : Act Fn Arg → Prop
  | .create fn _ _ m => (∃ who, s.ctl = .user who) ∧ fn ≠ none ∧
      match m with
      | .callocFails => True
      | .mallocFails co => s.live co = false
      | .ok co _ => s.live co = false
  | .free co => (∃ who, s.ctl = .user who) ∧
      ∃ a, co = some a ∧ s.live a = true ∧ (s.mem a).state = .done
  | .yield | .ret => ∃ c, s.ctl = .user (some c)
  | .await other => (∃ c, s.ctl = .user (some c)) ∧ ∃ a, other = some a ∧ s.live a = true
  | .run | .id => ∃ who, s.ctl = .user who
  | .state co => (∃ who, s.ctl = .user who) ∧ ∃ a, co = some a ∧ s.live a = true
  | .sched => ∃ who, s.ctl = .loop who

/-- `co_run` is called from main only. -/
def FromMain (s : State Fn Arg) (a : Act Fn Arg) : Prop :=
  match a with
  | .run => s.ctl = .user none
  | _ => True

end State

/-- A step of any program that keeps to the API: `co_run` may be called from a body. -/
def Step {Fn Arg : Type} (s : State Fn Arg) (a : Act Fn Arg) (s' : State Fn Arg) : Prop :=
  s.Legal a ∧ s.step a = .ok s'

/-- A step of a program that calls `co_run` from main only. -/
def StepM {Fn Arg : Type} (s : State Fn Arg) (a : Act Fn Arg) (s' : State Fn Arg) : Prop :=
  Step s a s' ∧ s.FromMain a

end CCoroutine
