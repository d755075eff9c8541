import CCoroutine.Scheduler.Execution
import CCoroutine.Refinement.Steps
import Mathlib.Algebra.BigOperators.Fin
import Mathlib.Algebra.Order.BigOperators.Group.Finset

/-!
# Completion — Programs

Finite programs over the API: main creates coroutines and calls `co_run` once, and a body is a
finite sequence of `co_create` of such bodies, `co_yield` and `co_await`, ending in a return.
Coroutines carry labels, the variables that hold their handles; a label may be used for several.

`PState` is the scheduler state with what is left of each body.  `Program.run` executes a program,
one call or one turn of the scheduler loop after the other, on the addresses `alloc` returns.
-/

namespace CCoroutine
open CCoroutine.Ideal (Ev)

/-- What is left of a body. -/
inductive Code (L : Type) where
  | ret
  | create (l : L) (body rest : Code L)
  | yield (rest : Code L)
  | await (l : L) (rest : Code L)

/-- What `fn` points to: a body, and the label its coroutine is known by. -/
structure Routine (L : Type) where
  label : L
  body : Code L

/-- What the code being executed does next. -/
inductive Cmd (L : Type) where
  | create (f : Routine L)
  | yield
  | await (l : L)
  | ret
  | run
  /-- A turn of the scheduler loop. -/
  | turn

namespace Code

variable {L : Type}

def head : Code L → Cmd L
  | ret => .ret
  | create l b _ => .create ⟨l, b⟩
  | yield _ => .yield
  | await l _ => .await l

/-- What is left after the first command; nothing after the return. -/
def tail : Code L → Option (Code L)
  | ret => none
  | create _ _ rest | yield rest | await _ rest => some rest

/-- The number of commands, those of the created bodies included. -/
def size : Code L → ℕ
  | ret => 1
  | create _ b rest => 1 + b.size + rest.size
  | yield rest | await _ rest => 1 + rest.size

/-- The number of coroutines created, by the created bodies too. -/
def creates : Code L → ℕ
  | ret => 0
  | create _ b rest => 1 + b.creates + rest.creates
  | yield rest | await _ rest => rest.creates

/-- In the body of a coroutine with the label `self`, every `co_await` targets a smaller label; so
do the bodies created in it. -/
def Ordered (r : L → L → Prop) : L → Code L → Prop
  | _, ret => True
  | self, create l b rest => b.Ordered r l ∧ rest.Ordered r self
  | self, yield rest => rest.Ordered r self
  | self, await t rest => r t self ∧ rest.Ordered r self

end Code

/-- Main creates these coroutines, in order, and calls `co_run`. -/
abbrev Program (L : Type) := List (Routine L)

namespace Program

variable {L : Type}

/-- The number of coroutines the program creates. -/
def creates (prog : Program L) : ℕ := (prog.map fun f => 1 + f.body.creates).sum

/-- Main's share of the commands. -/
def size (prog : Program L) : ℕ := (prog.map fun f => 1 + f.body.size).sum

def Ordered (r : L → L → Prop) (prog : Program L) : Prop := ∀ f ∈ prog, f.body.Ordered r f.label

end Program

/-- A program in execution. -/
structure PState (L : Type) where
  s : State (Routine L) Unit
  /-- What is left of the body of each coroutine, by id. -/
  code : ℕ → Option (Code L)
  /-- What main has still to create. -/
  main : Program L
  /-- Main has called `co_run`. -/
  called : Bool
  /-- The variables that hold the handles. -/
  env : L → Option Addr

namespace PState

variable {L : Type} [DecidableEq L]

def start (prog : Program L) : PState L where
  s := .init
  code := fun _ => none
  main := prog
  called := false
  env := fun _ => none

/-- What the code being executed does next; nothing when main's `co_run` has returned. -/
def cmd (p : PState L) : Option (Cmd L) :=
  match p.s.ctl with
  | .loop _ => some .turn
  | .user none => match p.main with
    | f :: _ => some (.create f)
    | [] => if p.called then none else some .run
  | .user (some c) => (p.code (p.s.idOf c)).map Code.head

/-- The call of the API, when the allocator returns `m`. -/
def act (p : PState L) (m : Addr × Addr) : Cmd L → Act (Routine L) Unit
  | .create f => .create (some f) none 0 (.ok m.1 m.2)
  | .yield => .yield
  | .await l => .await (p.env l)
  | .ret => .ret
  | .run => .run
  | .turn => .sched

/-- The code being executed is past its command. -/
def pop (p : PState L) : PState L :=
  match p.s.ctl with
  | .loop _ => p
  | .user none => match p.main with
    | _ :: rest => { p with main := rest }
    | [] => { p with called := true }
  | .user (some c) =>
      { p with
        code := Function.update p.code (p.s.idOf c) ((p.code (p.s.idOf c)).bind Code.tail) }

/-- A created coroutine gets its body, and its handle is stored. -/
def bindNew (p : PState L) (m : Addr × Addr) : Cmd L → PState L
  | .create f =>
      { p with
        code := Function.update p.code (p.s.all.length + 1) (some f.body)
        env := Function.update p.env f.label (some m.1) }
  | .yield | .await _ | .ret | .run | .turn => p

/-- One step of the program; a program that has ended stays as it is. -/
def exec (p : PState L) (m : Addr × Addr) : Except Fault (PState L) :=
  match p.cmd with
  | none => .ok p
  | some c => (p.s.step (p.act m c)).map fun s' => { p.pop.bindNew m c with s := s' }

/-- The program after `n` more steps, when the allocator returns `alloc i` in step `i`. -/
def run (p : PState L) (alloc : ℕ → Addr × Addr) : ℕ → Except Fault (PState L)
  | 0 => .ok p
  | n + 1 => do (← p.run alloc n).exec (alloc n)

/-- What happens in the next step. -/
def event (p : PState L) (m : Addr × Addr) : Option (Ev (Routine L) Unit) :=
  p.cmd.map fun c => p.s.event (p.act m c)

/-- What happens in the first `n` steps. -/
def trace (p : PState L) (alloc : ℕ → Addr × Addr) : ℕ → List (Ev (Routine L) Unit)
  | 0 => []
  | n + 1 => p.trace alloc n ++ ((p.run alloc n).toOption.bind fun q => q.event (alloc n)).toList

end PState

/-- The program after `n` steps, when the allocator returns `alloc i` in step `i`. -/
def Program.run {L : Type} [DecidableEq L] (prog : Program L) (alloc : ℕ → Addr × Addr) (n : ℕ) :
    Except Fault (PState L) :=
  (PState.start prog).run alloc n

end CCoroutine
