import CCoroutine.Temporal.Fifo
import CCoroutine.Temporal.Leftovers

/-!
# Temporal — Deadlock

Which coroutines can still finish, in any state of any program.  A chain of `awaiting` links ends
at a coroutine that is not waiting, or it runs into a cycle (`State.Deadlocked`).  In the first case
there is a continuation in which the coroutine finishes: let every body that executes return, and
call `co_run` (`InvM.exists_executes`).  In the second there is none, whatever the program does.

Deadlocks arise in a blocking `co_await` only, and the chain that starts at its target tells
whether one does (`State.deadlocked_step_iff`).
-/

namespace CCoroutine
open CCoroutine.Ideal (Task Sys Ev)
open Support (Steps Reachable follow RunsIntoCycle)

namespace State

variable {Fn Arg : Type} {s s' : State Fn Arg} {a : Act Fn Arg} {c t w x y : Addr} {k : ℕ}

/-- The chain of `awaiting` links from `w` runs into a cycle. -/
def Deadlocked (s : State Fn Arg) (w : Addr) : Prop := RunsIntoCycle s.link w

namespace InvM

/-! ### Links and waits -/

theorem live_of_link (h : s.InvM) (hx : s.live x = true) (hl : s.link x = some y) :
    s.live y = true :=
  h.target x y hx hl

theorem waitsOn_of_link (h : s.InvM) (hx : s.live x = true) (hl : s.link x = some y) :
    s.abs.WaitsOn (s.idOf x) (s.idOf y) := by
  have hw : (s.mem x).state = .waiting := (h.waiting_iff hx).mpr (by rw [← link, hl]; simp)
  exact ⟨_, h.task_live hx, hw, by simpa [Coroutine.task] using ⟨y, hl, rfl⟩⟩

theorem link_of_waitsOn (h : s.InvM) (hx : s.live x = true) {j : ℕ}
    (hw : s.abs.WaitsOn (s.idOf x) j) : ∃ y, s.link x = some y ∧ s.idOf y = j := by
  obtain ⟨u, hu, -, ha⟩ := hw
  rw [h.task_live hx] at hu
  cases hu
  exact Option.map_eq_some_iff.mp ha

/-- **A link is old, or has just been made by `co_await`.** -/
theorem link_step (h : s.InvM) (hs : StepM s a s') (hx : s.live x = true)
    (hl : s'.link x = some y) :
    s.live y = true ∧ (s.link x = some y ∨
      s.ctl = .user (some x) ∧ a = .await (some y) ∧ (s.mem y).state ≠ .done) := by
  by_cases hfree : ∃ co, a = .free co
  · -- `co_free` leaves the record as it is
    obtain ⟨co, rfl⟩ := hfree
    obtain ⟨⟨who, hc⟩, -⟩ := hs.1.1
    have he := hs.1.2
    rw [State.step_user hc, State.call_free] at he
    obtain ⟨b, -, rfl⟩ := coFree_inv he
    exact ⟨h.live_of_link hx hl, .inl hl⟩
  have hkeep : ∀ z, s.live z = true → s'.live z = true ∧ s'.idOf z = s.idOf z :=
    fun z hz => h.handle_step hs (fun co e => hfree ⟨co, e⟩) hz
  obtain ⟨hstep, hi⟩ := h.refines hs
  obtain ⟨hx', hidx⟩ := hkeep x hx
  have hy' := hi.live_of_link hx' hl
  -- the coroutine at `y` is the one with its id before the step
  have hsame : ∀ z, s.live z = true → s.idOf z = s'.idOf y → z = y := fun z hz e =>
    hi.addr.idOf_inj (hkeep z hz).1 hy' ((hkeep z hz).2.trans e)
  have hw := hi.waitsOn_of_link hx' hl
  rw [hidx] at hw
  rcases hstep.waitsOn_of h.ideal hw with hold | hnew
  · obtain ⟨z, hz, hid⟩ := h.link_of_waitsOn hx hold
    have hzl := h.live_of_link hx hz
    obtain rfl := hsame z hzl hid
    exact ⟨hzl, .inl hz⟩
  · obtain ⟨other, rfl⟩ := causes_of_event hnew
    obtain ⟨⟨c, hc⟩, b, rfl, hb⟩ := hs.1.1
    simp only [event, Option.map_some, Option.getD_some, Option.some.injEq, self_eq hc] at hnew
    split at hnew
    · cases hnew
    · next hd =>
        obtain ⟨hcx, hby⟩ := Ev.blocked.inj hnew
        obtain rfl := hsame b hb hby
        obtain rfl := h.addr.idOf_inj (h.running_of_ctl hc).1 hx hcx
        exact ⟨hb, .inr ⟨hc, rfl, hd⟩⟩

/-! ### A deadlock is for good -/

/-- The link of a deadlocked coroutine stays, in every step. -/
theorem deadlocked_keeps (h : s.InvM) (hs : StepM s a s') (hw : s.live w = true)
    (hd : s.Deadlocked w) :
    s'.Waits w ∧ s'.idOf w = s.idOf w ∧ s'.link w = s.link w := by
  obtain ⟨y, hy, hdy⟩ := hd.exists_next
  have hyl := h.live_of_link hw hy
  obtain ⟨z, hz, -⟩ := hdy.exists_next
  obtain ⟨hstep, hi⟩ := h.refines hs
  -- the target waits itself, so it does not return in this step
  have hkeep := hstep.waitsOn_of_waiting h.ideal (h.waitsOn_of_link hw hy)
    (h.waitsOn_of_link hyl hz)
  have hmono := all_mono hs.1.2
  rw [hy]
  exact hi.waits_of_waitsOn hkeep (addrOf_mono hmono (h.addr.registered w hw))
    (addrOf_mono hmono (h.addr.registered y hyl))

theorem deadlocked_step (h : s.InvM) (hs : StepM s a s') (hw : s.live w = true)
    (hd : s.Deadlocked w) : s'.Deadlocked w :=
  hd.congr (P := fun x => s.live x = true)
    (fun _ hx hdx => ⟨(h.deadlocked_keeps hs hx hdx).2.2, fun _ hy => h.live_of_link hx hy⟩) hw

/-- What is deadlocked waits on the same coroutine in every continuation. -/
theorem deadlocked_steps (h : s.InvM) {as : List (Act Fn Arg)} (hs : Steps StepM s as s')
    (hw : s.live w = true) (hd : s.Deadlocked w) :
    s'.Waits w ∧ s'.idOf w = s.idOf w ∧ s'.link w = s.link w ∧ s'.Deadlocked w := by
  induction hs with
  | refl s =>
      obtain ⟨y, hy, -⟩ := hd.exists_next
      exact ⟨⟨hw, (h.waiting_iff hw).mpr (by rw [← link, hy]; simp)⟩, rfl, rfl, hd⟩
  | more hs _ ih =>
      obtain ⟨hwait, hid, hlink⟩ := h.deadlocked_keeps hs hw hd
      obtain ⟨hwait', hid', hlink', hd'⟩ := ih (h.step hs) hwait.1 (h.deadlocked_step hs hw hd)
      exact ⟨hwait', hid'.trans hid, hlink'.trans hlink, hd'⟩

/-! ### What is not deadlocked can finish -/

/-- A legal step other than `co_create` can be taken. -/
theorem exists_step_of_legal (h : s.InvM) (hl : s.Legal a) (hm : s.FromMain a)
    (ha : ∀ fn arg n m, a ≠ .create fn arg n m) :
    ∃ s', StepM s a s' ∧ s'.InvM ∧ Ideal.Step s.abs (s.event a) s'.abs := by
  obtain ⟨s', hs⟩ := h.exists_step hl hm fun ⟨⟨fn, arg, n, m, e⟩, _⟩ => ha fn arg n m e
  exact ⟨s', hs, (h.refines hs).2, (h.refines hs).1⟩

theorem loop_of_abs (h : s.InvM) {o : Option ℕ} (hc : s.abs.ctl = .loop o) :
    s.ctl = .loop none := by
  cases hs : s.ctl with
  | user who => rw [abs_ctl_user hs] at hc; cases hc
  | loop who => rw [h.loop_main hs]

/-- The body being executed returns. -/
theorem exists_return (h : s.InvM) (he : s.Executes k) :
    ∃ s' ws, StepM s .ret s' ∧ s'.InvM ∧ s'.ctl = .loop none ∧
      Ideal.Step s.abs (.finished k ws) s'.abs := by
  obtain ⟨c, hc, rfl⟩ := he
  obtain ⟨s', hs, hi, hstep⟩ := h.exists_step_of_legal (a := .ret) ⟨c, hc⟩ trivial (by simp)
  simp only [event, self_eq hc] at hstep
  obtain ⟨-, -, o, hctl⟩ := hstep.finished_inv
  exact ⟨s', _, hs, hi, hi.loop_of_abs hctl, hstep⟩

/-- The scheduler loop resumes the head of the queue. -/
theorem exists_turn (h : s.InvM) (hc : s.ctl = .loop none) {q : List ℕ}
    (hq : s.abs.queue = k :: q) :
    ∃ s', StepM s .sched s' ∧ s'.InvM ∧ s'.Executes k ∧ s'.abs.queue = q := by
  obtain ⟨s', hs, hi, hstep⟩ := h.exists_step_of_legal (a := .sched) ⟨_, hc⟩ trivial (by simp)
  obtain ⟨co, rest, hrun, hid, -⟩ := List.map_eq_cons_iff.mp hq
  obtain ⟨call, he⟩ : ∃ call, s.event .sched = .resumed k call := by
    simp only [event, hrun, hid]
    exact ⟨_, rfl⟩
  rw [he] at hstep
  have hfifo : k :: s'.abs.queue = s.abs.queue ++ [] := hstep.fifo
  rw [hq, List.append_nil] at hfifo
  exact ⟨s', hs, hi, executes_iff.mpr hstep.resumed_ctl, (List.cons.inj hfifo).2⟩

/-- Control gets back to the scheduler loop, and who is ready stays in the queue. -/
theorem exists_loop (h : s.InvM) :
    ∃ as s' ys, Steps StepM s as s' ∧ s'.InvM ∧ s'.ctl = .loop none ∧
      s'.abs.queue = s.abs.queue ++ ys := by
  cases hc : s.ctl with
  | loop who =>
      obtain rfl := h.loop_main hc
      exact ⟨[], s, [], .refl s, h, hc, (List.append_nil _).symm⟩
  | user who =>
      cases who with
      | none =>
          obtain ⟨s', hs, hi, hstep⟩ := h.exists_step_of_legal (a := .run) ⟨_, hc⟩ hc (by simp)
          exact ⟨_, s', [], .one hs, hi, hi.loop_of_abs hstep.runCalled_ctl, hstep.fifo⟩
      | some c =>
          obtain ⟨s', ws, hs, hi, hctl, hstep⟩ := h.exists_return ⟨c, hc, rfl⟩
          exact ⟨_, s', ws, .one hs, hi, hctl, hstep.fifo⟩

/-- **What is ready can execute**: those ahead of it in the queue are resumed and return. -/
theorem exists_executes_of_queue (h : s.InvM) (hc : s.ctl = .loop none) {xs ys : List ℕ}
    (hq : s.abs.queue = xs ++ k :: ys) :
    ∃ as s', Steps StepM s as s' ∧ s'.InvM ∧ s'.Executes k := by
  induction xs generalizing s ys with
  | nil =>
      obtain ⟨s', hs, hi, he, -⟩ := h.exists_turn hc hq
      exact ⟨_, s', .one hs, hi, he⟩
  | cons x xs ih =>
      obtain ⟨s₁, hs₁, hi₁, he₁, hq₁⟩ := h.exists_turn hc hq
      obtain ⟨s₂, ws, hs₂, hi₂, hc₂, hstep⟩ := hi₁.exists_return he₁
      have hq₂ : s₂.abs.queue = xs ++ k :: (ys ++ ws) := by
        have hfifo : s₂.abs.queue = s₁.abs.queue ++ ws := hstep.fifo
        rw [hfifo, hq₁]
        simp
      obtain ⟨as, s', hs', hi', he'⟩ := ih hi₂ hc₂ hq₂
      exact ⟨_, s', .more hs₁ (.more hs₂ hs'), hi', he'⟩

theorem exists_executes_of_ready (h : s.InvM) (hr : s.abs.InState k .ready) :
    ∃ as s', Steps StepM s as s' ∧ s'.InvM ∧ s'.Executes k := by
  obtain ⟨as, s₁, zs, hs₁, hi₁, hc₁, hq₁⟩ := h.exists_loop
  obtain ⟨xs, ys, hq⟩ := List.mem_iff_append.mp ((h.ideal.ready k).mpr hr)
  obtain ⟨bs, s', hs', hi', he'⟩ := hi₁.exists_executes_of_queue hc₁
    (hq₁.trans (by rw [hq, List.append_assoc, List.cons_append]))
  exact ⟨_, s', hs₁.trans hs', hi', he'⟩

/-- **What waits on a body that executes can execute** after that body has returned. -/
theorem exists_executes_of_waitsOn (h : s.InvM) {j : ℕ} (he : s.Executes j)
    (hw : s.abs.WaitsOn k j) : ∃ as s', Steps StepM s as s' ∧ s'.InvM ∧ s'.Executes k := by
  obtain ⟨s₁, ws, hs₁, hi₁, -, hstep⟩ := h.exists_return he
  have hready : s₁.abs.InState k .ready := by
    rcases hstep.waitsOn h.ideal hw with hstill | ⟨hr, -⟩
    · -- nobody waits on what is done
      obtain ⟨u, hu, -, ha⟩ := hstill
      obtain ⟨v, hv, hn⟩ := hi₁.ideal.target k u j hu ha
      exact absurd (hstep.finished_inv.2.1.eq hv) hn
    · exact hr
  obtain ⟨as, s', hs', hi', he'⟩ := hi₁.exists_executes_of_ready hready
  exact ⟨_, s', .more hs₁ hs', hi', he'⟩

/-- A wait lasts as long as its target is not done. -/
theorem waitsOn_steps (h : s.InvM) {as : List (Act Fn Arg)} (hs : Steps StepM s as s') {j : ℕ}
    (hw : s.abs.WaitsOn k j) : s'.abs.WaitsOn k j ∨ s'.abs.InState j .done := by
  have hrun := hs.invariant
    (P := fun s => s.InvM ∧ (s.abs.WaitsOn k j ∨ s.abs.InState j .done)) ?_ ⟨h, .inl hw⟩
  · exact hrun.2
  · rintro s a s' ⟨hi, hwd⟩ hst
    obtain ⟨hstep, hi'⟩ := hi.refines hst
    refine ⟨hi', ?_⟩
    rcases hwd with hw | hd
    · rcases hstep.waitsOn hi.ideal hw with hw | ⟨-, ws, he⟩
      · exact .inl hw
      · rw [he] at hstep
        exact .inr hstep.finished_inv.2.1
    · exact .inr (hstep.done hi.ideal hd)

/-- **What is not deadlocked can execute.**  By induction on the chain: its first target can
execute, and the coroutine still waits on it then. -/
theorem exists_executes (h : s.InvM) (hw : s.live w = true) (hd : (s.mem w).state ≠ .done) {n : ℕ}
    (hn : follow s.link n w = some x) (hx : s.link x = none) :
    ∃ as s', Steps StepM s as s' ∧ s'.InvM ∧ s'.Executes (s.idOf w) := by
  induction n generalizing w with
  | zero =>
      obtain rfl : w = x := Option.some.inj hn
      cases hst : (s.mem w).state with
      | done => exact absurd hst hd
      | waiting => exact absurd hx ((h.waiting_iff hw).mp hst)
      | ready => exact h.exists_executes_of_ready ((h.inState_iff hw).mpr hst)
      | running =>
          have hrun := (h.ideal.inState_running_iff h.flat _).mp ((h.inState_iff hw).mpr hst)
          exact ⟨[], s, .refl s, h, executes_iff.mpr hrun⟩
  | succ n ih =>
      rw [follow] at hn
      obtain ⟨t, ht, hn⟩ := Option.bind_eq_some_iff.mp hn
      have hwt := h.waitsOn_of_link hw ht
      obtain ⟨as, s₁, hs₁, hi₁, he₁⟩ :=
        ih (h.live_of_link hw ht) (h.target_not_done hw ht) hn
      have hwait : s₁.abs.WaitsOn (s.idOf w) (s.idOf t) := by
        refine (h.waitsOn_steps hs₁ hwt).resolve_right fun hdone => ?_
        cases (hi₁.ideal.running_of_ctl (executes_iff.mp he₁)).unique hdone
      obtain ⟨bs, s', hs', hi', he'⟩ := hi₁.exists_executes_of_waitsOn he₁ hwait
      exact ⟨_, s', hs₁.trans hs', hi', he'⟩

/-- A coroutine that is not deadlocked finishes in some continuation. -/
theorem exists_done (h : s.InvM) (hw : s.live w = true) (hd : ¬ s.Deadlocked w) :
    ∃ as s', Steps StepM s as s' ∧ s'.abs.InState (s.idOf w) .done := by
  by_cases hdone : (s.mem w).state = .done
  · exact ⟨[], s, .refl s, (h.inState_iff hw).mpr hdone⟩
  -- the chain stays among the coroutines in `S.all`, so it ends
  have hfin : {x | ∃ n, follow s.link n w = some x}.Finite := by
    refine (List.finite_toSet s.all).subset ?_
    rintro x ⟨n, hn⟩
    exact h.addr.mem_all (Support.follow_mem (P := fun x => s.live x = true)
      (fun _ hx _ hy => h.live_of_link hx hy) hw hn)
  obtain ⟨n, x, hn, hx⟩ := Support.exists_end hfin hd
  obtain ⟨as, s₁, hs₁, hi₁, he₁⟩ := h.exists_executes hw hdone hn hx
  obtain ⟨s', ws, hs', -, -, hstep⟩ := hi₁.exists_return he₁
  exact ⟨_, s', hs₁.trans (.one hs'), hstep.finished_inv.2.1⟩

end InvM

/-- **Which coroutines can still finish.**  In every reachable state, an unfreed coroutine finishes
in some continuation exactly when its chain of `awaiting` links does not run into a cycle.  When it
does, the coroutine waits on the same target for good, whatever the program does. -/
theorem can_finish_iff (h : Reachable StepM (init : State Fn Arg) s) (hw : s.live w = true) :
    ((∃ as s', Steps StepM s as s' ∧ s'.abs.InState (s.idOf w) .done) ↔ ¬ s.Deadlocked w) ∧
    (s.Deadlocked w → ∀ as s', Steps StepM s as s' →
      s'.Waits w ∧ s'.idOf w = s.idOf w ∧ s'.link w = s.link w ∧ s'.Deadlocked w) := by
  have hi := invM_of_reachable h
  refine ⟨⟨?_, hi.exists_done hw⟩, fun hd as s' hs => hi.deadlocked_steps hs hw hd⟩
  rintro ⟨as, s', hs, hdone⟩ hd
  obtain ⟨hwait, hid, -⟩ := hi.deadlocked_steps hs hw hd
  have hi' : s'.InvM := hs.invariant (fun _ _ _ h hst => h.step hst) hi
  rw [← hid, hi'.inState_iff hwait.1, hwait.2] at hdone
  cases hdone

theorem not_deadlocked_firstAwaitsSecond : ¬ (after firstAwaitsSecond).Deadlocked 10 := by
  intro hd
  have hlink : (after firstAwaitsSecond).link 10 = some 20 := rfl
  obtain ⟨y, hy, -⟩ := ((Support.runsIntoCycle_iff hlink).mp hd).exists_next
  cases hy

theorem can_finish_iff_firstAwaitsSecond :
    (after firstAwaitsSecond).Waits 10 ∧ ∃ as s', Steps StepM (after firstAwaitsSecond) as s' ∧
      s'.abs.InState 1 .done :=
  ⟨⟨by decide, by decide⟩, (can_finish_iff (reachable_after firstAwaitsSecond (by decide))
    (w := 10) (by decide)).1.mpr not_deadlocked_firstAwaitsSecond⟩

/-! ### How a deadlock arises -/

/-- A blocking `co_await` adds one link. -/
theorem InvM.link_await (h : s.InvM) (hs : StepM s (.await (some t)) s')
    (hc : s.ctl = .user (some c)) (hd : (s.mem t).state ≠ .done) :
    s.link c = none ∧ s'.link = Function.update s.link c (some t) := by
  obtain ⟨hl, hrun⟩ := h.running_of_ctl hc
  obtain ⟨hr, o, rest, hf, hm⟩ := h.holds h.attached hc
  refine ⟨h.awaiting_none hl (by simp [hrun]), ?_⟩
  have he := hs.1.2
  rw [State.step_user hc, State.call_await, coAwait_eq hd hr hm (mem_frames hf)] at he
  cases he
  funext x
  by_cases e : x = c
  · subst e; simp [link, suspended]
  · simp [link, suspended, e]

/-- **How a deadlock arises.**  After a step the deadlocked coroutines are those that were, and,
when `c` blocks in `co_await(t)` and the chain from `t` leads to `c` or into a cycle, those whose
chain leads to `c`. -/
theorem deadlocked_step_iff (h : Reachable StepM (init : State Fn Arg) s) (hs : StepM s a s')
    (hw : s.live w = true) :
    s'.Deadlocked w ↔ s.Deadlocked w ∨ ∃ c t, s.ctl = .user (some c) ∧ a = .await (some t) ∧
      (s.mem t).state ≠ .done ∧ (∃ n, follow s.link n w = some c) ∧
      (s.Deadlocked t ∨ ∃ n, follow s.link n t = some c) := by
  have hi := invM_of_reachable h
  -- the link of the caller of a blocking `co_await` is new
  have hnew : ∀ x y, s.live x = true → s'.link x = some y → s.live y = true ∧
      (s.link x = some y ∨
        s.ctl = .user (some x) ∧ ∃ t, a = .await (some t) ∧ (s.mem t).state ≠ .done) := by
    intro x y hx hy
    obtain ⟨hyl, hold | ⟨hc, hat, hnd⟩⟩ := hi.link_step hs hx hy
    · exact ⟨hyl, .inl hold⟩
    · exact ⟨hyl, .inr ⟨hc, y, hat, hnd⟩⟩
  constructor
  · intro hd
    refine (hd.of_new hnew hw).imp_right ?_
    rintro ⟨n, c, ⟨hc, t, rfl, hnd⟩, hn, hcl, hdc⟩
    obtain ⟨hnone, hlink⟩ := hi.link_await hs hc hnd
    have hct : s'.link c = some t := by rw [hlink, Function.update_self]
    obtain ⟨-, b, hbt, htl⟩ := hs.1.1
    cases hbt
    refine ⟨c, t, hc, rfl, hnd, ⟨n, hn⟩, ?_⟩
    refine (((Support.runsIntoCycle_iff hct).mp hdc).of_new hnew htl).imp_right ?_
    rintro ⟨m, d, ⟨hd', -⟩, hm, -⟩
    rw [hc] at hd'
    cases hd'
    exact ⟨m, hm⟩
  · rintro (hd | ⟨c, t, hc, rfl, hnd, ⟨n, hn⟩, htc⟩)
    · exact hi.deadlocked_step hs hw hd
    · obtain ⟨hnone, hlink⟩ := hi.link_await hs hc hnd
      have hmono : ∀ x y, s.link x = some y → s'.link x = some y := by
        intro x y hxy
        have hxc : x ≠ c := fun e => by rw [e, hnone] at hxy; cases hxy
        rw [hlink, Function.update_of_ne hxc, hxy]
      have hct : s'.link c = some t := by rw [hlink, Function.update_self]
      have hdt : s'.Deadlocked t := by
        rcases htc with hdt | ⟨m, hm⟩
        · obtain ⟨i, b, hb, j, hj⟩ := hdt
          exact ⟨i, b, Support.follow_mono hmono hb, j, Support.follow_mono hmono hj⟩
        · exact ⟨0, t, rfl, m, by
            rw [Support.follow_add, Support.follow_mono hmono hm]
            simp [follow, hct]⟩
      obtain ⟨i, b, hb, hcyc⟩ := (Support.runsIntoCycle_iff hct).mpr hdt
      exact ⟨n + i, b, by rw [Support.follow_add, Support.follow_mono hmono hn]; exact hb, hcyc⟩

/-- The second coroutine awaits the first, which waits on it. -/
theorem deadlocked_step_iff_secondAwaitsFirst :
    ∃ s', StepM (after firstAwaitsSecond) (.await (some 10)) s' ∧ s'.Deadlocked 10 ∧
      ¬ (after firstAwaitsSecond).Deadlocked 10 := by
  have hs : StepM (after firstAwaitsSecond) (.await (some 10))
      (after (firstAwaitsSecond ++ [.await (some 10)])) :=
    ⟨⟨⟨⟨20, rfl⟩, 10, rfl, by decide⟩, rfl⟩, trivial⟩
  refine ⟨_, hs, (deadlocked_step_iff (reachable_after firstAwaitsSecond (by decide)) hs
    (w := 10) (by decide)).mpr (.inr ⟨20, 10, rfl, rfl, by decide, ⟨1, rfl⟩, .inr ⟨1, rfl⟩⟩),
    not_deadlocked_firstAwaitsSecond⟩

end State

end CCoroutine
