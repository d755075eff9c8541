import CCoroutine.Refinement.Runs
import CCoroutine.Support.Cooperative

/-!
# Clients — Programs

Programs on the library whose coroutines share a memory.  Main creates one coroutine for each of a
list of bodies and calls `co_run`; a body executes arbitrary code between two calls of `co_yield` or
`co_await`, may look at `co_state` of another coroutine, and returns (`Support.Script`).

`Process` is the state of the library with the shared memory and the place each coroutine has got
to.  `Process.exec` executes one call, or one turn of the loop of `co_run`, on the model of
`src/coroutine.c`.  `Launch` is what a program needs to start: the library has nothing left to do,
there is room for the new coroutines, and the allocator returns records that are not in use.
-/

namespace CCoroutine
open Support (Call Script Turns Reachable)

/-- A program in execution.  What `fn` and `arg` stand for is the place its body starts at. -/
structure Process (σ κ : Type) where
  s : State κ Unit
  mem : σ
  /-- Where each coroutine goes on, with its local variables, by id. -/
  loc : ℕ → Option κ
  /-- The bodies main has still to create coroutines for. -/
  main : List κ
  /-- Main has called `co_run`. -/
  called : Bool

namespace Process

variable {σ κ : Type}

/-- `co_state(co) == CO_DONE`, for the coroutine with id `j`. -/
def finished (p : Process σ κ) (j : ℕ) : Bool :=
  decide ((p.s.coState (p.s.addrOf j)).toOption = some .done)

/-- The call of the API, with the handle of the coroutine that is awaited. -/
def act (p : Process σ κ) : Call κ → Act κ Unit
  | .yield _ => .yield
  | .await j _ => .await (p.s.addrOf j)
  | .ret => .ret

/-- One step: a call of main or of a body, or a turn of the loop of `co_run`, when the allocator
returns `m`.  A program whose `co_run` has returned stays as it is. -/
def exec (f : Script σ κ) (p : Process σ κ) (m : Addr × Addr) : Except Fault (Process σ κ) :=
  match p.s.ctl with
  | .loop _ => (p.s.step .sched).map fun s' => { p with s := s' }
  | .user none => match p.main with
    | k :: rest => (p.s.step (.create (some k) none 0 (.ok m.1 m.2))).map fun s' =>
        { p with
          s := s'
          loc := Function.update p.loc (p.s.all.length + 1) (some k)
          main := rest }
    | [] => if p.called then .ok p
        else (p.s.step .run).map fun s' => { p with s := s', called := true }
  | .user (some c) => match p.loc (p.s.idOf c) with
    | none => .error .disabled
    | some k =>
        let r := f p.finished k p.mem
        (p.s.step (p.act r.2)).map fun s' =>
          { p with s := s', mem := r.1, loc := Function.update p.loc (p.s.idOf c) r.2.place }

/-- The program after `n` more steps, when the allocator returns `alloc i` in step `i`. -/
def run (f : Script σ κ) (p : Process σ κ) (alloc : ℕ → Addr × Addr) :
    ℕ → Except Fault (Process σ κ)
  | 0 => .ok p
  | n + 1 => do (← p.run f alloc n).exec f (alloc n)

/-- Main's `co_run` has returned. -/
def Returned (p : Process σ κ) : Prop := p.called = true ∧ p.s.ctl = .user none

section Exec

variable {f : Script σ κ} {p q : Process σ κ} {al : Addr × Addr} {s' : State κ Unit}

theorem run_succ {alloc : ℕ → Addr × Addr} {n : ℕ} (h : p.run f alloc n = .ok q) :
    p.run f alloc (n + 1) = q.exec f (alloc n) := by
  rw [run, h]
  rfl

theorem exec_of_loop {who : Option Addr} (hc : p.s.ctl = .loop who)
    (hs : p.s.step .sched = .ok s') : p.exec f al = .ok { p with s := s' } := by
  simp only [exec, hc, hs, Except.map]

theorem exec_of_create {k : κ} {rest : List κ} (hc : p.s.ctl = .user none)
    (hmain : p.main = k :: rest)
    (hs : p.s.step (.create (some k) none 0 (.ok al.1 al.2)) = .ok s') :
    p.exec f al = .ok { p with
      s := s'
      loc := Function.update p.loc (p.s.all.length + 1) (some k)
      main := rest } := by
  simp only [exec, hc, hmain, hs, Except.map]

theorem exec_of_run (hc : p.s.ctl = .user none) (hmain : p.main = []) (hcalled : p.called = false)
    (hs : p.s.step .run = .ok s') : p.exec f al = .ok { p with s := s', called := true } := by
  simp [exec, hc, hmain, hcalled, hs, Except.map]

theorem exec_of_returned (h : p.Returned) (hmain : p.main = []) : p.exec f al = .ok p := by
  simp [exec, h.1, h.2, hmain]

theorem exec_of_body {a : Addr} {k : κ} {m : σ} {call : Call κ} (hc : p.s.ctl = .user (some a))
    (hloc : p.loc (p.s.idOf a) = some k) (hf : f p.finished k p.mem = (m, call))
    (hs : p.s.step (p.act call) = .ok s') :
    p.exec f al = .ok
      { p with s := s', mem := m, loc := Function.update p.loc (p.s.idOf a) call.place } := by
  simp only [exec, hc, hloc, hf, hs, Except.map]

end Exec

end Process

/-- A start for main's calls: `co_create` for each of the bodies, then `co_run`. -/
structure Launch {κ : Type} (bodies : List κ) where
  s : State κ Unit
  alloc : ℕ → Addr × Addr
  reachable : Reachable StepM State.init s
  main : s.ctl = .user none
  /-- Every coroutine that was created before has finished. -/
  idle : ∀ k t, s.taskAt k = some t → t.state = .done
  room : s.all.length + bodies.length ≤ maxCoroutines
  unused : ∀ i < bodies.length, s.live (alloc i).1 = false ∧ ∀ j < i, (alloc j).1 ≠ (alloc i).1

namespace Launch

variable {σ κ : Type} {bodies : List κ}

/-- The program after `n` steps. -/
def after (L : Launch bodies) (f : Script σ κ) (m : σ) (n : ℕ) : Except Fault (Process σ κ) :=
  (Process.mk L.s m (fun _ => none) bodies false).run f L.alloc n

/-- The same program as tasks taking turns; the numbers are the ids of the coroutines. -/
def turns (L : Launch bodies) (m : σ) : Turns σ κ where
  mem := m
  line := (List.range' (L.s.all.length + 1) bodies.length).zip bodies
  blocked := []

theorem turns_line_snd (L : Launch bodies) (m : σ) : (L.turns m).line.map Prod.snd = bodies :=
  List.map_snd_zip (by simp)

/-- The coroutines that main creates. -/
def Handle (L : Launch bodies) (j : ℕ) : Prop :=
  L.s.all.length < j ∧ j ≤ L.s.all.length + bodies.length

/-- No record is at an address that another one has had. -/
def NoReuse (L : Launch bodies) : Prop :=
  L.s.all.Nodup ∧ ∀ i < bodies.length, (L.alloc i).1 ∉ L.s.all

/-- At the start of the process. -/
def first (bodies : List κ) (h : bodies.length ≤ maxCoroutines) : Launch bodies where
  s := State.init
  alloc := fun i => (2 * i, 2 * i + 1)
  reachable := ⟨[], .refl _⟩
  main := rfl
  idle := by
    intro k t ht
    simp [State.taskAt, State.init, State.addrOf] at ht
  room := by simpa [State.init] using h
  unused := by
    intro i _
    refine ⟨rfl, ?_⟩
    intro j hj e
    exact hj.ne (Nat.mul_left_cancel two_pos e)

end Launch

end CCoroutine
