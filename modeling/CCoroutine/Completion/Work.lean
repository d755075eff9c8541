import CCoroutine.Completion.Termination

/-!
# Completion — Work

How often the loop of `co_run` turns.  Each turn resumes a body, and a body gives control back by a
`co_yield`, by a `co_await` that blocks, or by its return; so at the end the turns are as many as
these (`PState.coRun_work`), also when coroutines are left deadlocked.
-/

namespace CCoroutine
open CCoroutine.Ideal (Sys Ev)
open Support (Reachable)

/-! ### One step -/

namespace Ideal

variable {Fn Arg : Type} {A B : Sys Fn Arg} {e : Ev Fn Arg}

/-- The loop of `co_run` resumes a task. -/
def Ev.isResumption : Ev Fn Arg → Bool
  | .resumed _ _ => true
  | _ => false

def Ev.isYield : Ev Fn Arg → Bool
  | .yielded _ => true
  | _ => false

/-- A `co_await` that does not return at once. -/
def Ev.isBlock : Ev Fn Arg → Bool
  | .blocked _ _ => true
  | _ => false

/-- A body returns. -/
def Ev.isReturn : Ev Fn Arg → Bool
  | .finished _ _ => true
  | _ => false

/-- A task gives control back. -/
def Ev.isSuspension (e : Ev Fn Arg) : Bool := e.isYield || e.isBlock || e.isReturn

theorem countP_isSuspension (es : List (Ev Fn Arg)) :
    es.countP Ev.isSuspension =
      es.countP Ev.isYield + es.countP Ev.isBlock + es.countP Ev.isReturn := by
  induction es with
  | nil => rfl
  | cons e es ih =>
      simp only [List.countP_cons, ih]
      cases e <;> simp [Ev.isSuspension, Ev.isYield, Ev.isBlock, Ev.isReturn] <;> omega

/-- The number of bodies being executed. -/
def Sys.executing (A : Sys Fn Arg) : ℕ :=
  match A.ctl with
  | .user (some _) => 1
  | .user none | .loop _ => 0

/-- **Control.**  A resumption starts the execution of a body and a suspension ends it. -/
theorem Step.executing_eq (hf : A.Flat) (hs : Step A e B) (he : ∀ k, e ≠ .runCalled (some k)) :
    B.executing + [e].countP Ev.isSuspension = A.executing + [e].countP Ev.isResumption := by
  cases hs with
  | create | createFailed | free | await | sawState | sawId => rfl
  | yield hc | block hc | finish hc | resume hc => rw [Sys.executing, Sys.executing, hc]; rfl
  | @run who hc =>
      cases who with
      | none => rw [Sys.executing, Sys.executing, hc]; rfl
      | some k => exact absurd rfl (he k)
  | @runReturn who rest hc hq hframes =>
      cases who with
      | none => rw [Sys.executing, Sys.executing, hc]; rfl
      | some k => exact absurd (hframes ▸ List.mem_cons_self) (hf k)

end Ideal

/-! ### A whole `co_run` -/

namespace PState

variable {L : Type} [DecidableEq L]

/-- The turns of the loop are the suspensions, and one more while a body executes. -/
def Balanced (N : ℕ) (es : List (Ev (Routine L) Unit)) (p : PState L) : Prop :=
  p.Sound N ∧ p.s.abs.executing + es.countP Ev.isSuspension = es.countP Ev.isResumption

theorem Balanced.step {N : ℕ} {es : List (Ev (Routine L) Unit)} {p : PState L} {c : Cmd L}
    {m : Addr × Addr} {s' : State (Routine L) Unit} (h : Balanced N es p) (hcmd : p.cmd = some c)
    (hs : StepM p.s (p.act m c) s') :
    Balanced N (es ++ [p.s.event (p.act m c)]) { p.pop.bindNew m c with s := s' } := by
  obtain ⟨hsound, hbalance⟩ := h
  refine ⟨(hsound.step (next_of_cmd hcmd) hs).1, ?_⟩
  have hstep := (hsound.inv.refines hs).1.executing_eq hsound.inv.flat
    (State.InvM.event_ne_runCalled hs.2)
  simp only [List.countP_append]
  omega

/-- **Termination and exact work of `co_run`.**  Main is about to create the coroutines `p.main`,
if any, and to call `co_run`, in any state that a program can have reached, whatever is left of the
bodies of the coroutines that exist.  Then `co_run` returns, and its loop has turned once for each
`co_yield`, each `co_await` that blocked and each return of a body. -/
theorem coRun_work (p : PState L) (alloc : ℕ → Addr × Addr)
    (hreach : Reachable Step State.init p.s) (hctl : p.s.ctl = .user none)
    (hcalled : p.called = false) (hcode : ∀ k, p.code k ≠ none ↔ p.s.abs.Unfinished k)
    (henv : ∀ l a, p.env l = some a → p.s.live a = true)
    (hcount : p.s.all.length + p.creates ≤ maxCoroutines)
    (hfree : ∀ n q f, p.run alloc n = .ok q → q.cmd = some (.create f) →
      q.s.live (alloc n).1 = false)
    (hset : ∀ n q l, p.run alloc n = .ok q → q.cmd = some (.await l) → q.env l ≠ none) :
    ∃ n q, p.run alloc n = .ok q ∧ q.called = true ∧ q.s.ctl = .user none ∧ q.s.runQueue = [] ∧
      (p.trace alloc n).countP Ev.isResumption = (p.trace alloc n).countP Ev.isYield +
        (p.trace alloc n).countP Ev.isBlock + (p.trace alloc n).countP Ev.isReturn := by
  have hstart : p.Sound (p.s.all.length + p.creates) :=
    { inv := (State.inv_of_reachable hreach).invM_of_main hctl
      code := hcode
      env := henv
      count := rfl
      room := hcount
      before := fun _ => hctl
      returned := fun h => by cases hcalled.symm.trans h }
  obtain ⟨n, q, hq, ⟨hsound, hbalance⟩, hcmd⟩ := run_ends
    (Q := Balanced (p.s.all.length + p.creates)) (fun _ _ h => h.1)
    (fun _ _ _ _ _ h hcmd _ hs => h.step hcmd hs)
    ⟨hstart, by simp [Sys.executing, State.abs_ctl_user hctl]⟩ hfree hset
  obtain ⟨hmain, -, hc⟩ := hsound.ended hcmd
  refine ⟨n, q, hq, hc, hmain, (hsound.returned hc).2 hmain, ?_⟩
  rw [← Ideal.countP_isSuspension, ← hbalance]
  simp [Sys.executing, State.abs_ctl_user hmain]

/-- `0` and `1` await each other; `2` creates `3` and awaits it, and awaits it again when it is
done. -/
def deadlock : Program ℕ :=
  [⟨0, .yield (.await 1 .ret)⟩, ⟨1, .await 0 .ret⟩,
    ⟨2, .create 3 (.yield .ret) (.await 3 (.await 3 .ret))⟩]

theorem coRun_work_deadlock : ∃ n q, (start deadlock).run Program.bump n = .ok q ∧
    q.called = true ∧ q.s.ctl = .user none ∧ q.s.runQueue = [] ∧
    ((start deadlock).trace Program.bump n).countP Ev.isResumption =
      ((start deadlock).trace Program.bump n).countP Ev.isYield +
      ((start deadlock).trace Program.bump n).countP Ev.isBlock +
      ((start deadlock).trace Program.bump n).countP Ev.isReturn := by
  have hok : ∀ n q, (start deadlock).run Program.bump n = .ok q →
      Program.callOk q (Program.bump n) = true := by
    intro n q hq
    exact Program.callOk_of_ended (K := 30) (by decide) (by decide) hq
  refine coRun_work (start deadlock) Program.bump ⟨[], .refl _⟩ rfl rfl (fun k => ?_)
    (fun l a h => by cases h) (by decide) (fun n q f hq hc => ?_) fun n q l hq hc => ?_
  · simp [start, State.abs_init, Sys.Unfinished, Sys.init]
  · simpa [Program.callOk, hc] using hok n q hq
  · simpa [Program.callOk, hc, Option.isSome_iff_ne_none] using hok n q hq

end PState

end CCoroutine
