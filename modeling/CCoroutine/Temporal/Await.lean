import CCoroutine.Refinement.Runs
import CCoroutine.Scheduler.Execution

/-!
# Temporal — Await

The postcondition of `co_await`, along a run.  Nothing in `co_await` looks at the target again
after the switch: that it is done when the call returns follows from how a wait can end
(`Ideal.Step.waitsOn`), one step after another.
-/

namespace CCoroutine
open CCoroutine.Ideal (Sys Ev)
open Support (Run exec)

namespace Execution

variable {Fn Arg : Type} {r : Execution Fn Arg} {i j k : ℕ}

/-- The coroutine with id `k` returns from its body in step `f`. -/
def Finishes (r : Execution Fn Arg) (f k : ℕ) : Prop :=
  (f : ℕ∞) < r.len ∧ r.act f = .ret ∧ (r.st f).Executes k

theorem finishes_of_event {f : ℕ} {ws : List ℕ} (hf : (f : ℕ∞) < r.len)
    (he : r.event f = .finished k ws) : r.Finishes f k := by
  have hstep := ideal_of_event hf he
  exact ⟨hf, State.causes_of_event he, State.executes_iff.mpr hstep.finished_inv.1⟩

/-- What is done has finished before. -/
theorem exists_finish (hi : (i : ℕ∞) ≤ r.len) (hd : (r.st i).abs.InState k .done) :
    ∃ f < i, r.Finishes f k := by
  induction i with
  | zero =>
      rw [r.start, State.abs_init] at hd
      obtain ⟨t, ht, -⟩ := hd
      cases ht
  | succ i ih =>
      have hlt := Run.lt_of_succ_le hi
      by_cases hd' : (r.st i).abs.InState k .done
      · obtain ⟨f, hf, hfin⟩ := ih hlt.le hd'
        exact ⟨f, hf.trans (Nat.lt_succ_self i), hfin⟩
      · obtain ⟨ws, he⟩ := (ideal hlt).done_of (inv hlt.le).ideal hd hd'
        exact ⟨i, Nat.lt_succ_self i, finishes_of_event hlt he⟩

/-- A coroutine that waits on `k'` goes on waiting until `k'` is done. -/
theorem waits_or_done {k' : ℕ} (hij : i ≤ j) (hj : (j : ℕ∞) ≤ r.len)
    (hw : (r.st i).abs.WaitsOn k k') :
    (r.st j).abs.WaitsOn k k' ∨ (r.st j).abs.InState k' .done := by
  induction hij with
  | refl => exact .inl hw
  | step _ ih =>
      have hlt := Run.lt_of_succ_le hj
      have hinv := (inv hlt.le).ideal
      rcases ih hlt.le with hw | hd
      · rcases (ideal hlt).waitsOn hinv hw with hw | ⟨-, ws, he⟩
        · exact .inl hw
        · have hstep := ideal_of_event hlt he
          exact .inr hstep.finished_inv.2.1
      · exact .inr ((ideal hlt).done hinv hd)

/-- The body of a waiting coroutine does not execute, nor does it once the wait has just ended. -/
theorem done_before_execute {k' : ℕ} (hij : i < j) (hj : (j : ℕ∞) ≤ r.len)
    (hw : (r.st i).abs.WaitsOn k k') (he : (r.st j).Executes k) :
    (r.st (j - 1)).abs.InState k' .done := by
  obtain ⟨j, rfl⟩ : ∃ n, j = n + 1 := ⟨j - 1, by omega⟩
  have hlt := Run.lt_of_succ_le hj
  have hctl := State.executes_iff.mp he
  refine (waits_or_done (Nat.le_of_lt_succ hij) hlt.le hw).resolve_left fun hw => ?_
  rcases (ideal hlt).waitsOn (inv hlt.le).ideal hw with ⟨t, ht, hst, -⟩ | ⟨-, ws, hev⟩
  · have := ((inv hj).ideal.running_of_ctl hctl).eq ht
    rw [hst] at this
    cases this
  · -- the target's return goes back to the scheduler loop
    have hstep := ideal_of_event hlt hev
    obtain ⟨o, ho⟩ := hstep.finished_inv.2.2
    rw [ho] at hctl
    cases hctl

/-- What a call of `co_await` does. -/
theorem event_await {c t : Addr} (hc : (r.st i).ctl = .user (some c))
    (ha : r.act i = .await (some t)) :
    r.event i = .awaited ((r.st i).idOf c) ((r.st i).idOf t) ∨
      r.event i = .blocked ((r.st i).idOf c) ((r.st i).idOf t) := by
  simp only [event, State.event, ha, State.self_eq hc, Option.map_some, Option.getD_some]
  split
  · exact .inl rfl
  · exact .inr rfl

/-- **The postcondition of `co_await`.**  At every later point at which the caller's body
executes, the first of them being the return of the call, the target is done; it was done before
the return, and it stays done.  So the target has finished before the caller does. -/
theorem await_done (r : Execution Fn Arg) {i : ℕ} {c t : Addr} (hi : (i : ℕ∞) < r.len)
    (hc : (r.st i).ctl = .user (some c)) (ha : r.act i = .await (some t)) :
    (∀ j, i < j → (j : ℕ∞) ≤ r.len → (r.st j).Executes ((r.st i).idOf c) →
      ∀ m, j ≤ m + 1 → (m : ℕ∞) ≤ r.len → (r.st m).abs.InState ((r.st i).idOf t) .done) ∧
    ∀ f, i < f → r.Finishes f ((r.st i).idOf c) →
      (∃ f' < f, r.Finishes f' ((r.st i).idOf t)) ∧
      ∀ f', r.Finishes f' ((r.st i).idOf t) → f' < f := by
  have hstep := ideal hi
  have hdone : ∀ j, i < j → (j : ℕ∞) ≤ r.len → (r.st j).Executes ((r.st i).idOf c) →
      (r.st (j - 1)).abs.InState ((r.st i).idOf t) .done := by
    intro j hij hj he
    have hj' : ((j - 1 : ℕ) : ℕ∞) ≤ r.len := le_trans (by exact_mod_cast Nat.sub_le j 1) hj
    rcases event_await hc ha with hev | hev
    · rw [hev] at hstep
      exact done_of_le (Nat.le_sub_one_of_lt hij) hj' hstep.awaited_inv
    · rw [hev] at hstep
      rcases Nat.lt_or_ge (i + 1) j with hlt | hge
      · exact done_before_execute hlt hj hstep.blocked_inv.2.1 he
      · -- the call has just suspended the caller
        obtain rfl : j = i + 1 := by omega
        obtain ⟨u, hu, hst, -⟩ := hstep.blocked_inv.2.1
        have := ((inv hj).ideal.running_of_ctl (State.executes_iff.mp he)).eq hu
        rw [hst] at this
        cases this
  refine ⟨fun j hij hj he m hm hml => ?_, fun f hif hfin => ?_⟩
  · exact done_of_le (by omega) hml (hdone j hij hj he)
  · have hd := done_of_le (Nat.sub_le f 1) hfin.1.le (hdone f hif hfin.1.le hfin.2.2)
    refine ⟨exists_finish hfin.1.le hd, fun f' hfin' => ?_⟩
    by_contra hle
    exact not_executes_of_done hfin'.1.le (done_of_le (not_lt.mp hle) hfin'.1.le hd) hfin'.2.2

/-- The first coroutine awaits the second; both finish. -/
def firstAfterSecond : List (Act Unit Unit) :=
  [.create (some ()) none 0 (.ok 10 11), .create (some ()) none 0 (.ok 20 21), .run, .sched,
    .await (some 20), .sched, .ret, .sched, .ret, .sched]

theorem await_done_firstAfterSecond :
    ∃ r : Execution Unit Unit, r.act 4 = .await (some 20) ∧ (r.st 8).Executes 1 ∧
      (r.st 7).abs.InState 2 .done ∧ r.Finishes 8 1 ∧ ∃ f' < 8, r.Finishes f' 2 := by
  let r : Execution Unit Unit := State.runOf firstAfterSecond (by decide)
  have hlen : ∀ {n : ℕ}, n ≤ firstAfterSecond.length → (n : ℕ∞) ≤ r.len := Nat.cast_le.mpr
  have hex : (r.st 8).Executes 1 := ⟨10, rfl, rfl⟩
  have hfin : r.Finishes 8 1 := ⟨Run.lt_of_succ_le (hlen (by decide)), rfl, hex⟩
  have hc : (r.st 4).ctl = .user (some 10) := rfl
  have h := await_done r (Run.lt_of_succ_le (hlen (by decide))) hc (t := 20) rfl
  exact ⟨r, rfl, hex, h.1 8 (by decide) (hlen (by decide)) hex 7 (by decide) (hlen (by decide)),
    hfin, (h.2 8 (by decide) hfin).1⟩

end Execution

end CCoroutine
