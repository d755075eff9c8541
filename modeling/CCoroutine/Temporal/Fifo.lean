import CCoroutine.Refinement.Runs
import CCoroutine.Scheduler.Execution
import CCoroutine.Support.Lists

/-!
# Temporal — Fifo

The run-queue is served in order, along every run.  One law carries everything: what has been
resumed since position `i`, followed by the queue now, is the queue at `i` followed by what has
been pushed since (`resumed_append_queue`), whatever the bodies did meanwhile.
-/

namespace CCoroutine
open CCoroutine.Ideal (Sys Ev)
open Support (Run)

namespace Ideal

variable {Fn Arg : Type}

/-- The task a step resumes. -/
def Ev.resumedIds : Ev Fn Arg → List ℕ
  | .resumed k _ => [k]
  | _ => []

/-- The tasks a step pushes, in order. -/
def Ev.pushedIds : Ev Fn Arg → List ℕ
  | .created k _ _ => [k]
  | .yielded k => [k]
  | .finished _ ws => ws
  | _ => []

/-- **First in, first out**, for one step. -/
theorem Step.fifo {A B : Sys Fn Arg} {e : Ev Fn Arg} (hs : Step A e B) :
    e.resumedIds ++ B.queue = A.queue ++ e.pushedIds := by
  cases hs with
  | create | yield | finish => rfl
  | resume hc hq ht => simp [Ev.resumedIds, Ev.pushedIds, hq]
  | createFailed | free | await | block | run | runReturn | sawState | sawId =>
      exact (List.append_nil _).symm

end Ideal

namespace Execution

variable {Fn Arg : Type} {r : Execution Fn Arg} {i j k : ℕ}

/-- The ids in the run-queue at position `i`. -/
def queue (r : Execution Fn Arg) (i : ℕ) : List ℕ := (r.st i).runQueue.map (r.st i).idOf

/-- The ids that `co_run` resumes in the steps from `i` up to `j`, in order. -/
def resumed (r : Execution Fn Arg) (i j : ℕ) : List ℕ :=
  (List.range' i (j - i)).flatMap fun m => (r.event m).resumedIds

theorem resumed_self (i : ℕ) : r.resumed i i = [] := by simp [resumed]

theorem resumed_succ (h : i ≤ j) :
    r.resumed i (j + 1) = r.resumed i j ++ (r.event j).resumedIds := by
  have hj : j + 1 - i = (j - i) + 1 := by omega
  have hlast : i + (j - i) = j := Nat.add_sub_cancel' h
  simp [resumed, hj, List.range'_concat, hlast]

theorem exists_of_mem_resumed (h : k ∈ r.resumed i j) :
    ∃ n, i ≤ n ∧ n < j ∧ ∃ call, r.event n = .resumed k call := by
  obtain ⟨n, hn, hk⟩ := List.mem_flatMap.mp h
  obtain ⟨hi, hj⟩ := List.mem_range'_1.mp hn
  refine ⟨n, hi, by omega, ?_⟩
  cases he : r.event n with
  | resumed k' call =>
      rw [he] at hk
      obtain rfl : k = k' := by simpa [Ev.resumedIds] using hk
      exact ⟨call, rfl⟩
  | _ => rw [he] at hk; simp [Ev.resumedIds] at hk

/-- **First in, first out**, along a run. -/
theorem resumed_append_queue (hij : i ≤ j) (hj : (j : ℕ∞) ≤ r.len) :
    ∃ new, r.resumed i j ++ r.queue j = r.queue i ++ new := by
  induction hij with
  | refl => exact ⟨[], by simp [resumed_self]⟩
  | @step j hij ih =>
      have hlt := Run.lt_of_succ_le hj
      obtain ⟨new, hnew⟩ := ih hlt.le
      have hstep : (r.event j).resumedIds ++ r.queue (j + 1) = r.queue j ++ (r.event j).pushedIds :=
        (ideal hlt).fifo
      refine ⟨new ++ (r.event j).pushedIds, ?_⟩
      rw [resumed_succ hij, List.append_assoc, hstep, ← List.append_assoc, hnew, List.append_assoc]

/-- The queue is the ready coroutines. -/
theorem mem_queue_iff (hi : (i : ℕ∞) ≤ r.len) : k ∈ r.queue i ↔ (r.st i).abs.InState k .ready :=
  (inv hi).ideal.ready k

theorem nodup_queue (hi : (i : ℕ∞) ≤ r.len) : (r.queue i).Nodup := (inv hi).ideal.nodup

/-- The head of the queue is resumed in the next turn of the loop. -/
theorem queue_of_resumed (hj : (j : ℕ∞) < r.len) {call : Option (Option Fn × Option Arg)}
    (he : r.event j = .resumed k call) : ∃ rest, r.queue j = k :: rest := by
  have hstep := ideal_of_event hj he
  obtain ⟨-, q, -, hq, -⟩ := hstep.resumed_inv
  exact ⟨q, hq⟩

/-- The loop does not return while the queue has a head: its next turn resumes the head, which then
executes. -/
theorem next_turn (hj : (j : ℕ∞) ≤ r.len) {who : Option Addr} (hc : (r.st j).ctl = .loop who)
    {rest : List ℕ} (hq : r.queue j = k :: rest) :
    ∃ s' call, (r.st j).step .sched = .ok s' ∧ (r.st j).event .sched = .resumed k call ∧
      s'.Executes k ∧ s'.abs.InState k .running := by
  obtain ⟨co, l, hl, hid, -⟩ := List.map_eq_cons_iff.mp hq
  obtain ⟨s', hs, hstep, hinv⟩ := (inv hj).toInv.step_resume hc hl
  obtain ⟨call, he⟩ : ∃ call, (r.st j).event .sched = .resumed k call := by
    simp only [State.event, hl, hid]
    exact ⟨_, rfl⟩
  rw [he] at hstep
  have hctl := hstep.resumed_ctl
  exact ⟨s', call, (State.step_loop hc).trans hs, he, State.executes_iff.mpr hctl,
    hinv.ideal.running_of_ctl hctl⟩

/-- `k` suspends in step `i`, in `co_yield` or in a blocking `co_await`. -/
def Suspends (r : Execution Fn Arg) (i k : ℕ) : Prop :=
  r.event i = .yielded k ∨ ∃ j, r.event i = .blocked k j

/-- The coroutine that suspends is not in the queue. -/
theorem Suspends.not_mem_queue (h : r.Suspends i k) (hi : (i : ℕ∞) < r.len) : k ∉ r.queue i := by
  have hctl : (r.st i).abs.ctl = .user (some k) := by
    have hstep := ideal hi
    rcases h with he | ⟨j, he⟩ <;> rw [he] at hstep
    · exact hstep.yielded_inv
    · exact hstep.blocked_inv.1
  intro hm
  cases ((mem_queue_iff hi.le).mp hm).unique ((inv hi.le).ideal.running_of_ctl hctl)

/-- What is resumed between a suspension of `k` and a later resumption of `k` starts with what was
ready at the suspension. -/
theorem Suspends.queue_first (h : r.Suspends i k) (hij : i < j) (hj : (j : ℕ∞) < r.len)
    {call : Option (Option Fn × Option Arg)} (he : r.event j = .resumed k call) :
    ∃ zs new rest, r.resumed (i + 1) j = r.queue i ++ zs ∧
      (r.event i).pushedIds ++ new = zs ++ k :: rest := by
  have hi : (i : ℕ∞) < r.len := lt_trans (by exact_mod_cast hij) hj
  obtain ⟨rest, hq⟩ := queue_of_resumed hj he
  obtain ⟨new, hnew⟩ := resumed_append_queue (i := i + 1) hij hj.le
  have hpush : r.queue (i + 1) = r.queue i ++ (r.event i).pushedIds := by
    have hstep : (r.event i).resumedIds ++ r.queue (i + 1) = r.queue i ++ (r.event i).pushedIds :=
      (ideal hi).fifo
    rcases id h with he | ⟨j, he⟩ <;> rw [he] at hstep ⊢ <;> exact hstep
  rw [hq, hpush, List.append_assoc] at hnew
  obtain ⟨zs, hzs, hrest⟩ := Support.cut_of_append_eq hnew (h.not_mem_queue hi)
  exact ⟨zs, new, rest, hzs, hrest⟩

/-- **FIFO service.**  Along every run:
* control enters a body exactly in the steps that resume its coroutine, which then is running;
* a coroutine with `xs` ahead of it in the run-queue is resumed after exactly `xs`, in that order;
  until then it stays queued behind what is left of `xs`, and whenever control is back in the
  loop, the next of them is resumed and executes;
* between a `co_yield` of `k` and its next resumption exactly the coroutines that were ready at
  the yield are resumed, in queue order and once each;
* every coroutine that is ready when `k` suspends is resumed before `k` is. -/
theorem fifo_service (r : Execution Fn Arg) :
    (∀ j : ℕ, (j : ℕ∞) < r.len → ∀ k,
      ((∃ call, r.event j = .resumed k call) ↔
        ¬ (r.st j).Executes k ∧ (r.st (j + 1)).Executes k) ∧
      ∀ call, r.event j = .resumed k call → (r.st (j + 1)).abs.InState k .running) ∧
    (∀ (i j k : ℕ) (xs ys : List ℕ), i ≤ j → (j : ℕ∞) ≤ r.len → r.queue i = xs ++ k :: ys →
      (∃ zs new, xs = r.resumed i j ++ zs ∧ r.queue j = zs ++ k :: ys ++ new ∧
        ∀ who, (r.st j).ctl = .loop who → ∃ s' k' call, (r.st j).step .sched = .ok s' ∧
          (r.st j).event .sched = .resumed k' call ∧ s'.Executes k' ∧
          s'.abs.InState k' .running ∧ (zs ++ [k]).head? = some k') ∨
      ∃ zs, r.resumed i j = xs ++ k :: zs) ∧
    (∀ (i j k : ℕ) (call : Option (Option Fn × Option Arg)), i < j → (j : ℕ∞) < r.len →
      r.event i = .yielded k → r.event j = .resumed k call →
      (∀ n, i < n → n < j → ∀ call', r.event n ≠ .resumed k call') →
      r.resumed (i + 1) j = r.queue i ∧ (r.queue i).Nodup ∧
        ∀ k', k' ∈ r.queue i ↔ (r.st i).abs.InState k' .ready) ∧
    ∀ (i j k : ℕ) (call : Option (Option Fn × Option Arg)), i < j → (j : ℕ∞) < r.len →
      r.Suspends i k → r.event j = .resumed k call →
      ∀ k', (r.st i).abs.InState k' .ready → k' ∈ r.resumed (i + 1) j := by
  refine ⟨fun j hj k => ⟨resumed_iff_enters hj, fun call he => ?_⟩,
    fun i j k xs ys hij hj hq => ?_, fun i j k call hij hj hy he hnext => ?_,
    fun i j k call hij hj hs he k' hk' => ?_⟩
  · have hctl := (ideal_of_event hj he).resumed_ctl
    exact (inv (Order.add_one_le_of_lt hj)).ideal.running_of_ctl hctl
  · obtain ⟨new, hnew⟩ := resumed_append_queue hij hj
    rw [hq, List.append_assoc] at hnew
    -- cut at `k`: it is still queued, or the cut lies behind it
    rcases List.append_eq_append_iff.mp hnew with ⟨zs, hxs, hrest⟩ | ⟨zs, hres, hrest⟩
    · refine .inl ⟨zs, new, hxs, by simpa using hrest, fun who hc => ?_⟩
      cases zs with
      | nil =>
          obtain ⟨s', call, hs, he, hex, hrun⟩ := next_turn hj hc hrest
          exact ⟨s', k, call, hs, he, hex, hrun, rfl⟩
      | cons z zs =>
          obtain ⟨s', call, hs, he, hex, hrun⟩ := next_turn hj hc hrest
          exact ⟨s', z, call, hs, he, hex, hrun, rfl⟩
    · cases zs with
      | nil =>
          refine .inl ⟨[], new, by simpa using hres.symm, by simpa using hrest.symm,
            fun who hc => ?_⟩
          obtain ⟨s', call, hs, he, hex, hrun⟩ := next_turn hj hc hrest.symm
          exact ⟨s', k, call, hs, he, hex, hrun, rfl⟩
      | cons z zs =>
          obtain rfl : k = z := (List.cons.inj hrest).1
          exact .inr ⟨zs, hres⟩
  · have hi : (i : ℕ∞) < r.len := lt_trans (by exact_mod_cast hij) hj
    obtain ⟨zs, new, rest, hres, hpush⟩ := Suspends.queue_first (.inl hy) hij hj he
    refine ⟨?_, nodup_queue hi.le, fun k' => mem_queue_iff hi.le⟩
    -- `k` itself is pushed first and is not resumed in between
    cases zs with
    | nil => simpa using hres
    | cons z zs =>
        rw [hy] at hpush
        obtain rfl : k = z := (List.cons.inj hpush).1
        obtain ⟨n, hn, hnj, call', he'⟩ := exists_of_mem_resumed (k := k) (by rw [hres]; simp)
        exact absurd he' (hnext n hn hnj call')
  · have hi : (i : ℕ∞) < r.len := lt_trans (by exact_mod_cast hij) hj
    obtain ⟨zs, -, -, hres, -⟩ := hs.queue_first hij hj he
    rw [hres]
    exact List.mem_append_left _ ((mem_queue_iff hi.le).mpr hk')

/-- The first of two coroutines yields to the second, which returns; then the first returns. -/
def yieldsToSecond : List (Act Unit Unit) :=
  [.create (some ()) none 0 (.ok 10 11), .create (some ()) none 0 (.ok 20 21), .run, .sched,
    .yield, .sched, .ret, .sched, .ret, .sched]

def yieldsToSecondRun : Execution Unit Unit := State.runOf yieldsToSecond (by decide)

theorem fifo_service_yieldsToSecond :
    (yieldsToSecondRun.event 3 = .resumed 1 (some (some (), none)) ∧
      (yieldsToSecondRun.st 4).Executes 1) ∧
    (yieldsToSecondRun.event 4 = .yielded 1 ∧ yieldsToSecondRun.queue 4 = [2]) ∧
    (yieldsToSecondRun.event 5 = .resumed 2 (some (some (), none)) ∧
      (yieldsToSecondRun.st 6).Executes 2) ∧
    (yieldsToSecondRun.event 7 = .resumed 1 none ∧ (yieldsToSecondRun.st 8).Executes 1 ∧
      yieldsToSecondRun.event 8 = .finished 1 []) ∧
    yieldsToSecondRun.resumed 5 7 = [2] := by
  have hlt : ∀ n : ℕ, n < yieldsToSecond.length → (n : ℕ∞) < yieldsToSecondRun.len :=
    fun n hn => Nat.cast_lt.mpr hn
  have h₃ : yieldsToSecondRun.event 3 = .resumed 1 (some (some (), none)) := rfl
  have h₄ : yieldsToSecondRun.event 4 = .yielded 1 := rfl
  have h₅ : yieldsToSecondRun.event 5 = .resumed 2 (some (some (), none)) := rfl
  have h₇ : yieldsToSecondRun.event 7 = .resumed 1 none := rfl
  have hqueue : yieldsToSecondRun.queue 4 = [2] := rfl
  have hnext : ∀ n, 4 < n → n < 7 → ∀ call, yieldsToSecondRun.event n ≠ .resumed 1 call := by
    intro n hn hn' call
    obtain rfl | rfl : n = 5 ∨ n = 6 := by omega
    all_goals exact fun he => by cases he
  obtain ⟨henters, -, hyield, -⟩ := fifo_service yieldsToSecondRun
  refine ⟨⟨h₃, ?_⟩, ⟨h₄, hqueue⟩, ⟨h₅, ?_⟩, ⟨h₇, ?_, rfl⟩, ?_⟩
  · exact ((henters 3 (hlt 3 (by decide)) 1).1.mp ⟨_, h₃⟩).2
  · exact ((henters 5 (hlt 5 (by decide)) 2).1.mp ⟨_, h₅⟩).2
  · exact ((henters 7 (hlt 7 (by decide)) 1).1.mp ⟨_, h₇⟩).2
  · exact (hyield 4 7 1 none (by decide) (hlt 7 (by decide)) h₄ h₇ hnext).1.trans hqueue

end Execution

end CCoroutine
