import CCoroutine.Completion.Handles
import CCoroutine.Completion.Return
import CCoroutine.Safety.Lifecycle

/-!
# Temporal — Leftovers

What a `co_run` leaves behind is dead.  When it returns, the coroutines that are not done wait on
each other, and the set of them is closed under `awaiting`: a wait in the set could end only by
the return of another body of the set, which is never executed.  So nothing that is created,
resumed or freed afterwards changes them (`Execution.leftovers_dead`).
-/

namespace CCoroutine
open CCoroutine.Ideal (Task Sys Ev)
open Support (Run)

/-! ### A closed set of waits -/

namespace Ideal

variable {Fn Arg : Type} {A B : Sys Fn Arg} {e : Ev Fn Arg} {k j i : ℕ}

theorem Sys.WaitsOn.inState (h : A.WaitsOn k j) : A.InState k .waiting := by
  obtain ⟨t, ht, hst, -⟩ := h
  exact ⟨t, ht, hst⟩

/-- With nothing ready and no body executing, the target of a wait waits itself. -/
theorem Inv.waitsOn_waitsOn (h : Inv A) (hf : A.Flat) (hc : A.ctl = .user none)
    (hq : A.queue = []) (hw : A.WaitsOn k j) : ∃ i, A.WaitsOn j i := by
  obtain ⟨t, ht, -, ha⟩ := hw
  obtain ⟨u, hu, hn⟩ := h.target k t j ht ha
  have hwait := (h.done_or_waiting hf hc hq hu).resolve_left hn
  obtain ⟨i, hi⟩ := Option.ne_none_iff_exists'.mp ((h.waiting j u hu).mp hwait)
  exact ⟨i, u, hu, hwait, hi⟩

/-- A wait on a task that waits goes on. -/
theorem Step.waitsOn_of_waiting (h : Inv A) (hs : Step A e B) (hw : A.WaitsOn k j)
    (hj : A.WaitsOn j i) : B.WaitsOn k j := by
  refine (hs.waitsOn h hw).resolve_right ?_
  rintro ⟨-, ws, rfl⟩
  cases (h.running_of_ctl hs.finished_inv.1).unique hj.inState

end Ideal

/-! ### At the addresses -/

/-- A wait, at the addresses of the two coroutines. -/
theorem State.InvM.waits_of_waitsOn {Fn Arg : Type} {s : State Fn Arg} (h : s.InvM) {k j : ℕ}
    {w x : Addr} (hw : s.abs.WaitsOn k j) (hk : s.addrOf k = some w) (hj : s.addrOf j = some x) :
    s.Waits w ∧ s.idOf w = k ∧ s.link w = some x := by
  obtain ⟨t, ht, hst, ha⟩ := hw
  obtain ⟨y, hy, rfl, rfl⟩ := h.live_of_not_done ht (by simp [hst])
  obtain rfl := Option.some.inj ((h.addr.registered y hy).symm.trans hk)
  obtain ⟨b, hb, rfl⟩ := Option.map_eq_some_iff.mp ha
  obtain rfl := Option.some.inj ((h.addr.registered b (h.target y b hy hb)).symm.trans hj)
  exact ⟨⟨hy, hst⟩, rfl, hb⟩

namespace Execution

variable {Fn Arg : Type} {r : Execution Fn Arg} {i k j m : ℕ}

theorem addrOf_of_le (him : i ≤ m) (hm : (m : ℕ∞) ≤ r.len) {x : Addr}
    (hx : (r.st i).addrOf k = some x) : (r.st m).addrOf k = some x :=
  r.stable (P := fun s => s.addrOf k = some x)
    (fun _ _ _ h hs => State.addrOf_mono (State.all_mono hs.1.2) h) him hm hx

/-- What does not exist at `i` and does at `m` is created in between. -/
theorem created_between (him : i ≤ m) (hm : (m : ℕ∞) ≤ r.len)
    (hi : (r.st i).abs.task k = none) (hk : (r.st m).abs.task k ≠ none) :
    ∃ p fn arg, i ≤ p ∧ p < m ∧ r.event p = .created k fn arg := by
  induction him with
  | refl => exact absurd hi hk
  | @step m him ih =>
      have hlt := Run.lt_of_succ_le hm
      by_cases hnone : (r.st m).abs.task k = none
      · obtain ⟨fn, arg, he⟩ := (ideal hlt).created_of (inv hlt.le).ideal hnone hk
        exact ⟨m, fn, arg, him, m.lt_succ_self, he⟩
      · obtain ⟨p, fn, arg, hip, hpm, he⟩ := ih hlt.le hnone
        exact ⟨p, fn, arg, hip, hpm.trans m.lt_succ_self, he⟩

/-- **The waits that a `co_run` leaves behind last.** -/
theorem waitsOn_of_quiet (hq : (r.st i).Quiet) (him : i ≤ m) (hm : (m : ℕ∞) ≤ r.len) :
    ∀ k j, (r.st i).abs.WaitsOn k j → (r.st m).abs.WaitsOn k j := by
  induction him with
  | refl => exact fun _ _ hw => hw
  | step _ ih =>
      intro k j hw
      have hlt := Run.lt_of_succ_le hm
      -- the target is one of the leftovers too
      obtain ⟨l, hl⟩ := hq.inv.ideal.waitsOn_waitsOn hq.inv.flat (State.abs_ctl_user hq.main)
        (by simp [State.abs, hq.empty]) hw
      exact (ideal hlt).waitsOn_of_waiting (inv hlt.le).ideal (ih hlt.le k j hw)
        (ih hlt.le j l hl)

/-- What waits is not resumed. -/
theorem not_resumed_of_waitsOn (hm : (m : ℕ∞) < r.len) (hw : (r.st m).abs.WaitsOn k j)
    (call : Option (Option Fn × Option Arg)) : r.event m ≠ .resumed k call := by
  intro hres
  have hr := (ideal_of_event hm hres).ready_of_resumed (inv hm.le).ideal
  cases hr.unique hw.inState

end Execution

/-- A coroutine of a quiet state that is not done waits on another. -/
theorem State.Quiet.waitsOn {Fn Arg : Type} {s : State Fn Arg} (h : s.Quiet) {k : ℕ}
    {t : Task Fn Arg} (ht : s.taskAt k = some t) (hd : t.state ≠ .done) :
    ∃ j w x, s.abs.WaitsOn k j ∧ s.addrOf k = some w ∧ s.addrOf j = some x := by
  obtain ⟨w, hw, rfl, rfl⟩ := h.inv.live_of_not_done ht hd
  have hwait : (s.mem w).state = .waiting := (h.done_or_waiting ht).resolve_left hd
  obtain ⟨x, hx, hxw⟩ := h.exists_link ⟨hw, hwait⟩
  exact ⟨s.idOf x, w, x, ⟨_, ht, hwait, by simpa [Coroutine.task] using ⟨x, hx, rfl⟩⟩,
    h.inv.addr.registered w hw, h.inv.addr.registered x hxw.1⟩

/-- **Leftovers are dead for good.**  When `co_run` returns in step `i`, a coroutine that is not
done then stays in memory, waiting on the same coroutine, and is never resumed; and what is
resumed later was created later. -/
theorem Execution.leftovers_dead {Fn Arg : Type} (r : Execution Fn Arg) {i : ℕ}
    (hi : (i : ℕ∞) < r.len) {who : Option Addr} (hc : (r.st i).ctl = .loop who)
    (hc' : (r.st (i + 1)).ctl = .user none) :
    (∀ k t, (r.st (i + 1)).taskAt k = some t → t.state ≠ .done →
      ∃ w x, ∀ m : ℕ, i < m → (m : ℕ∞) ≤ r.len →
        (r.st m).live w = true ∧ (r.st m).idOf w = k ∧ ((r.st m).mem w).state = .waiting ∧
        ((r.st m).mem w).awaiting = some x ∧
        ((m : ℕ∞) < r.len → ∀ call, r.event m ≠ .resumed k call)) ∧
    ∀ (m k : ℕ) call, i < m → (m : ℕ∞) < r.len → r.event m = .resumed k call →
      ∃ p fn arg, i < p ∧ p < m ∧ r.event p = .created k fn arg := by
  have hq := (inv hi.le).quiet_of_return hc (r.next i hi) hc'
  refine ⟨?_, ?_⟩
  · intro k t ht hd
    obtain ⟨j, w, x, hw, hk, hj⟩ := hq.waitsOn ht hd
    refine ⟨w, x, fun m him hm => ?_⟩
    have hwm := waitsOn_of_quiet hq him hm k j hw
    obtain ⟨⟨hl, hst⟩, hid, hlink⟩ :=
      (inv hm).waits_of_waitsOn hwm (addrOf_of_le him hm hk) (addrOf_of_le him hm hj)
    exact ⟨hl, hid, hst, hlink, fun hlt call => not_resumed_of_waitsOn hlt hwm call⟩
  · intro m k call him hm hres
    have hstep := ideal_of_event hm hres
    obtain ⟨u, q, hu, -⟩ := hstep.resumed_inv
    refine created_between him hm.le ?_ (by rw [hu]; exact Option.some_ne_none u)
    -- whatever existed at the return is done or waiting, and neither is resumed
    by_contra hne
    obtain ⟨t, ht⟩ := Option.ne_none_iff_exists'.mp hne
    by_cases hd : t.state = .done
    · exact not_resumed_of_done him hm ⟨t, ht, hd⟩ call hres
    · obtain ⟨j, -, -, hw, -⟩ := hq.waitsOn ht hd
      exact not_resumed_of_waitsOn hm (waitsOn_of_quiet hq him hm.le k j hw) call hres

/-- A coroutine awaits itself; after `co_run` has returned, another is created that awaits it, and
`co_run` is called again. -/
def State.lateAwait : List (Act Unit Unit) :=
  State.selfAwait ++ [.sched, .create (some ()) none 0 (.ok 20 21), .run, .sched,
    .await (some 10), .sched]

theorem Execution.leftovers_dead_lateAwait :
    ∃ r : Execution Unit Unit, (r.st 4).ctl = .loop none ∧ (r.st 5).ctl = .user none ∧
      (r.st 9).ctl = .loop none ∧ (r.st 10).ctl = .user none ∧
      ∃ w x, ((r.st 10).mem w).state = .waiting ∧ ((r.st 10).mem w).awaiting = some x ∧
        (r.st 10).idOf w = 1 := by
  let r : Execution Unit Unit := State.runOf State.lateAwait (by decide)
  have hlen : ∀ {n : ℕ}, n ≤ State.lateAwait.length → (n : ℕ∞) ≤ r.len := Nat.cast_le.mpr
  have hc : (r.st 4).ctl = .loop none := rfl
  have hc' : (r.st 5).ctl = .user none := rfl
  have h := (leftovers_dead r (Run.lt_of_succ_le (hlen (by decide))) hc hc').1
  obtain ⟨w, x, hw⟩ := h 1 _ rfl (by decide)
  obtain ⟨-, hid, hst, ha, -⟩ := hw 10 (by decide) (hlen (by decide))
  exact ⟨r, hc, hc', rfl, rfl, w, x, hst, ha, hid⟩

end CCoroutine
