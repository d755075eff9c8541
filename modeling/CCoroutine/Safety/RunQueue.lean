import CCoroutine.Refinement.Runs
import CCoroutine.Scheduler.Execution

/-!
# Safety — RunQueue

Between two API calls of a program that calls `co_run` from main only: the run-queue is the ready
coroutines, `S.running` is the body being executed, and nobody waits on a coroutine that has
finished.  The two assertions that guard the run-queue cannot fail.
-/

namespace CCoroutine
open Support (Reachable)

namespace State

variable {Fn Arg : Type} {s : State Fn Arg}

namespace InvM

/-- `S.running` is the body being executed, `NULL` when main executes. -/
theorem running_eq (h : s.InvM) {who : Option Addr} (hc : s.ctl = .user who) :
    s.running = who := by
  cases who with
  | none => simpa [ControlOk, hc] using h.control
  | some c => exact h.attached c hc

/-- The one running coroutine is the body being executed. -/
theorem running_iff (h : s.InvM) {who : Option Addr} (hc : s.ctl = .user who) {a : Addr}
    (ha : s.live a = true) : (s.mem a).state = .running ↔ who = some a := by
  rw [← h.inState_iff ha, h.ideal.inState_running_iff h.flat, abs_ctl_user hc]
  constructor
  · intro e
    obtain ⟨c, rfl, hid⟩ := Option.map_eq_some_iff.mp (Ctl.user.inj e)
    rw [h.addr.idOf_inj (h.live_of_ctl (.inl hc)) ha hid]
  · rintro rfl
    rfl

/-- A waiting coroutine has a target, and only a waiting one has. -/
theorem waiting_iff (h : s.InvM) {a : Addr} (ha : s.live a = true) :
    (s.mem a).state = .waiting ↔ (s.mem a).awaiting ≠ none :=
  (h.ideal.waiting _ _ (h.task_live ha)).trans (by simp [Coroutine.task])

/-- A step that does not fault on a full table does not fault. -/
theorem step_ne_error (h : s.InvM) {a : Act Fn Arg} (hl : s.Legal a) {e : Fault}
    (he : e ≠ .tooManyCoroutines) : s.step a ≠ .error e := by
  rcases h.progress hl with ⟨s', hs⟩ | hs
  · rw [hs]; exact fun h => nomatch h
  · rw [hs]; exact fun h => he (Except.error.inj h).symm

end InvM

/-- **The run-queue is the ready coroutines**, each once; `S.running` is the one running
coroutine while a body executes, and there is none while main does.  So the queue never
overflows, and what `co_run` pops is ready. -/
theorem runQueue_holds_ready (h : Reachable StepM (init : State Fn Arg) s) :
    (∀ who, s.ctl = .user who →
      (∀ a, a ∈ s.runQueue ↔ a ∈ s.all ∧ s.live a = true ∧ (s.mem a).state = .ready) ∧
      s.runQueue.Nodup ∧ s.running = who ∧
      (∀ c, who = some c → c ∈ s.all ∧ s.live c = true) ∧
      ∀ a, a ∈ s.all → s.live a = true → ((s.mem a).state = .running ↔ who = some a)) ∧
    (s.q.size ≤ s.all.length ∧ s.all.length ≤ maxCoroutines ∧ maxCoroutines < queueCap) ∧
    ∀ a, s.Legal a → s.step a ≠ .error .queueOverflow ∧ s.step a ≠ .error .notReady := by
  have hi := invM_of_reachable h
  refine ⟨fun who hc => ⟨fun a => ?_, hi.nodup_runQueue, hi.running_eq hc, fun c e => ?_,
    fun a _ ha => hi.running_iff hc ha⟩, ⟨hi.size_le, hi.count, by decide⟩,
    fun a hl => ⟨hi.step_ne_error hl (by decide), hi.step_ne_error hl (by decide)⟩⟩
  · rw [hi.mem_runQueue]
    exact ⟨fun ⟨hl, hr⟩ => ⟨hi.addr.mem_all hl, hl, hr⟩, fun ⟨_, hl, hr⟩ => ⟨hl, hr⟩⟩
  · have hl := hi.live_of_ctl (.inl (e ▸ hc))
    exact ⟨hi.addr.mem_all hl, hl⟩

/-- Two coroutines are created and `co_run` has resumed the first. -/
def firstOfTwo : List (Act Unit Unit) :=
  [.create (some ()) none 0 (.ok 10 11), .create (some ()) none 0 (.ok 20 21), .run, .sched]

theorem runQueue_holds_ready_firstOfTwo :
    (after firstOfTwo).ctl = .user (some 10) ∧ (after firstOfTwo).running = some 10 ∧
      ∀ a, a ∈ [20] ↔ a ∈ (after firstOfTwo).all ∧ (after firstOfTwo).live a = true ∧
        ((after firstOfTwo).mem a).state = .ready := by
  have h := (runQueue_holds_ready (reachable_after firstOfTwo (by decide))).1 (some 10) rfl
  exact ⟨rfl, h.2.2.1, h.1⟩

/-- **No lost wakeup.**  A coroutine waits exactly when it has a target, and the target is
registered, unfreed and not done. -/
theorem awaiting_unfinished (h : Reachable StepM (init : State Fn Arg) s) :
    ∀ a, s.live a = true → ((s.mem a).state = .waiting ↔ (s.mem a).awaiting ≠ none) ∧
      ∀ t, (s.mem a).awaiting = some t →
        t ∈ s.all ∧ s.live t = true ∧ (s.mem t).state ≠ .done := by
  have hi := invM_of_reachable h
  intro a ha
  refine ⟨hi.waiting_iff ha, fun t ht => ?_⟩
  have hl := hi.target a t ha ht
  exact ⟨hi.addr.mem_all hl, hl, hi.target_not_done ha ht⟩

/-- The first coroutine awaits the second, which has not finished, and the second executes. -/
def firstAwaitsSecond : List (Act Unit Unit) :=
  firstOfTwo ++ [.await (some 20), .sched]

theorem awaiting_unfinished_second :
    ((after firstAwaitsSecond).mem 10).awaiting = some 20 ∧
      20 ∈ (after firstAwaitsSecond).all ∧ (after firstAwaitsSecond).live 20 = true ∧
      ((after firstAwaitsSecond).mem 20).state ≠ .done := by
  have h := awaiting_unfinished (reachable_after firstAwaitsSecond (by decide)) 10
    (by decide)
  exact ⟨rfl, h.2 20 rfl⟩

end State

end CCoroutine
