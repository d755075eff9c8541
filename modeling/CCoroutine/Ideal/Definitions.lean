import CCoroutine.Scheduler.Definitions

/-!
# Ideal — Definitions

What the scheduler is for, with nothing of how it is built: no addresses, no ring buffer, no
contexts.  Tasks are numbered in the order of their creation and keep their number for good; the
run-queue is a list of numbers; `frames` is the stack of the `co_run` calls in progress, and a
suspending task goes back to the innermost of them.

A step is labelled by what happened (`Ev`), in terms of numbers only, so a list of labels is what
a program can have observed.  The order in which a finishing task wakes its waiters is left open:
`Step.finish` takes any enumeration `ws` of them.
-/

namespace CCoroutine.Ideal

/-- A coroutine, as the program sees it. -/
structure Task (Fn Arg : Type) where
  state : CoState
  awaiting : Option ℕ
  fn : Option Fn
  arg : Option Arg
  started : Bool
  freed : Bool

structure Sys (Fn Arg : Type) where
  count : ℕ
  task : ℕ → Option (Task Fn Arg)
  queue : List ℕ
  ctl : Ctl ℕ
  frames : List (Option ℕ)

/-- What a step does. -/
inductive Ev (Fn Arg : Type) where
  | created (k : ℕ) (fn : Option Fn) (arg : Option Arg)
  | createFailed
  | freed (k : ℕ)
  | yielded (k : ℕ)
  /-- `k` awaited the finished task `j`: the call returns at once. -/
  | awaited (k j : ℕ)
  /-- `k` awaited the unfinished task `j` and is suspended. -/
  | blocked (k j : ℕ)
  /-- The body of `k` returned; `ws` are woken, in this order. -/
  | finished (k : ℕ) (ws : List ℕ)
  | runCalled (who : Option ℕ)
  | runReturned (who : Option ℕ)
  /-- `k` is switched to; at the first time its function is called with its argument. -/
  | resumed (k : ℕ) (call : Option (Option Fn × Option Arg))
  | sawState (k : ℕ) (st : CoState)
  | sawId (k : ℕ)

variable {Fn Arg : Type}

def Task.woken (t : Task Fn Arg) : Task Fn Arg :=
  { t with state := .ready, awaiting := none }

namespace Sys

/-- `t` is the state of task `k`. -/
def set (A : Sys Fn Arg) (k : ℕ) (t : Task Fn Arg) : Sys Fn Arg :=
  { A with task := Function.update A.task k (some t) }

/-- `k` waits on `j`. -/
def WaitsOn (A : Sys Fn Arg) (k j : ℕ) : Prop :=
  ∃ t, A.task k = some t ∧ t.state = .waiting ∧ t.awaiting = some j

/-- `k` is in state `st`. -/
def InState (A : Sys Fn Arg) (k : ℕ) (st : CoState) : Prop :=
  ∃ t, A.task k = some t ∧ t.state = st

def create (A : Sys Fn Arg) (fn : Option Fn) (arg : Option Arg) : Sys Fn Arg :=
  { A with
    count := A.count + 1
    task := Function.update A.task (A.count + 1)
      (some { state := .ready, awaiting := none, fn := fn, arg := arg, started := false,
              freed := false })
    queue := A.queue ++ [A.count + 1] }

/-- The tasks after `k`, in the state `t`, has finished and woken `ws`. -/
def finishTask (A : Sys Fn Arg) (k : ℕ) (t : Task Fn Arg) (ws : List ℕ) (w : ℕ) :
    Option (Task Fn Arg) :=
  if w = k then some { t with state := .done }
  else if w ∈ ws then (A.task w).map Task.woken
  else A.task w

end Sys

open Sys

/-- One step of the ideal scheduler. -/
inductive Step : Sys Fn Arg → Ev Fn Arg → Sys Fn Arg → Prop where
  | create {A : Sys Fn Arg} {who : Option ℕ} (fn : Option Fn) (arg : Option Arg)
      (hc : A.ctl = .user who) : Step A (.created (A.count + 1) fn arg) (A.create fn arg)
  | createFailed {A : Sys Fn Arg} {who : Option ℕ} (hc : A.ctl = .user who) :
      Step A .createFailed A
  | free {A : Sys Fn Arg} {who : Option ℕ} {k : ℕ} {t : Task Fn Arg} (hc : A.ctl = .user who)
      (ht : A.task k = some t) (hd : t.state = .done) (hf : t.freed = false) :
      Step A (.freed k) (A.set k { t with freed := true })
  | yield {A : Sys Fn Arg} {k : ℕ} {t : Task Fn Arg} {o : Option ℕ} {rest : List (Option ℕ)}
      (hc : A.ctl = .user (some k)) (ht : A.task k = some t) (hf : A.frames = o :: rest) :
      Step A (.yielded k)
        { A.set k { t with state := .ready } with queue := A.queue ++ [k], ctl := .loop o }
  | await {A : Sys Fn Arg} {k j : ℕ} (hc : A.ctl = .user (some k)) (hj : A.InState j .done) :
      Step A (.awaited k j) A
  | block {A : Sys Fn Arg} {k j : ℕ} {t u : Task Fn Arg} {o : Option ℕ}
      {rest : List (Option ℕ)} (hc : A.ctl = .user (some k)) (ht : A.task k = some t)
      (hj : A.task j = some u) (hn : u.state ≠ .done) (hf : A.frames = o :: rest) :
      Step A (.blocked k j)
        { A.set k { t with state := .waiting, awaiting := some j } with ctl := .loop o }
  | finish {A : Sys Fn Arg} {k : ℕ} {t : Task Fn Arg} {ws : List ℕ} {o : Option ℕ}
      {rest : List (Option ℕ)} (hc : A.ctl = .user (some k)) (ht : A.task k = some t)
      (hf : A.frames = o :: rest) (hn : ws.Nodup) (hw : ∀ w, w ∈ ws ↔ A.WaitsOn w k) :
      Step A (.finished k ws)
        { A with task := A.finishTask k t ws, queue := A.queue ++ ws, ctl := .loop o }
  | run {A : Sys Fn Arg} {who : Option ℕ} (hc : A.ctl = .user who) :
      Step A (.runCalled who) { A with ctl := .loop who, frames := who :: A.frames }
  | resume {A : Sys Fn Arg} {who : Option ℕ} {k : ℕ} {q : List ℕ} {t : Task Fn Arg}
      (hc : A.ctl = .loop who) (hq : A.queue = k :: q) (ht : A.task k = some t) :
      Step A (.resumed k (if t.started then none else some (t.fn, t.arg)))
        { A.set k { t with state := .running, started := true } with
          queue := q, ctl := .user (some k) }
  | runReturn {A : Sys Fn Arg} {who : Option ℕ} {rest : List (Option ℕ)}
      (hc : A.ctl = .loop who) (hq : A.queue = []) (hf : A.frames = who :: rest) :
      Step A (.runReturned who) { A with ctl := .user who, frames := rest }
  | sawState {A : Sys Fn Arg} {who : Option ℕ} {k : ℕ} {st : CoState} (hc : A.ctl = .user who)
      (hk : A.InState k st) : Step A (.sawState k st) A
  | sawId {A : Sys Fn Arg} {who : Option ℕ} (hc : A.ctl = .user who) :
      Step A (.sawId (who.getD 0)) A

end CCoroutine.Ideal
