import CCoroutine.Ideal.Lifecycle
import CCoroutine.Refinement.Lifetimes
import CCoroutine.Support.Runs

/-!
# Refinement — Control

The cases of a step, assembled.  `Inv.exec`: a legal step succeeds, is a step of the ideal
scheduler and keeps the invariant, unless it is a `co_create` on a full table or a call of a
stranded body that relies on `S.running`.  So the invariant holds in every state of every program,
whoever calls `co_run` (`inv_of_reachable`).

`ControlStep` is what a step does to the control point, to `S.running`, to `S.main_ctx` and to the
`co_run` calls in progress.  There are five kinds of step: a call that returns at once, a
suspension, a call of `co_run`, a return of `co_run`, and a resumption.
-/

namespace CCoroutine
open CCoroutine.Ideal (Task Sys Ev)
open Support (Reachable)

/-- Whether `S.running` is `NULL` after the event, when the event decides it. -/
def Ideal.Ev.idle {Fn Arg : Type} : Ev Fn Arg → Option Bool
  | .yielded _ | .blocked _ _ | .finished _ _ => some true
  | .resumed _ _ => some false
  | _ => none

namespace State

variable {Fn Arg : Type} {s s' : State Fn Arg} {a : Act Fn Arg}

/-- The table is full when `co_create` is called. -/
def TableFull (s : State Fn Arg) (a : Act Fn Arg) : Prop :=
  (∃ fn arg n m, a = .create fn arg n m) ∧ s.all.length = maxCoroutines

/-- The calls that use `S.running` or `S.main_ctx`. -/
def Relies (s : State Fn Arg) : Act Fn Arg → Prop
  | .yield | .ret | .id => True
  | .await (some other) => (s.mem other).state ≠ .done
  | _ => False

theorem Inv.exec_create (h : s.Inv) {who : Option Addr} (hc : s.ctl = .user who) (f : Fn)
    (arg : Option Arg) (n : ℕ) {m : Alloc} (hl : s.Legal (.create (some f) arg n m))
    (hcount : s.all.length < maxCoroutines) :
    ∃ s', s.step (.create (some f) arg n m) = .ok s' ∧
      Ideal.Step s.abs (s.event (.create (some f) arg n m)) s'.abs ∧ s'.Inv := by
  simp only [step_user hc, call_create]
  cases m with
  | callocFails =>
      rw [coCreate_of_callocFails hcount]
      exact ⟨s, rfl, .createFailed (abs_ctl_user hc), h⟩
  | mallocFails co =>
      rw [coCreate_of_mallocFails hcount]
      refine ⟨_, rfl, ?_, h.dead hl.2.2 (by simp [Coroutine.zeroed])⟩
      rw [h.abs_dead hl.2.2]
      exact .createFailed (abs_ctl_user hc)
  | ok co stack =>
      obtain ⟨s', he, hstep, hinv⟩ := h.step_create hc f arg n stack hl.2.2 hcount
      exact ⟨s', by rw [he]; rfl, hstep, hinv⟩

/-- **A legal step refines the ideal scheduler.** -/
theorem Inv.exec (h : s.Inv) (hl : s.Legal a) (hfull : ¬ s.TableFull a)
    (hat : s.Relies a → s.Attached) :
    ∃ s', s.step a = .ok s' ∧ Ideal.Step s.abs (s.event a) s'.abs ∧ s'.Inv := by
  cases a with
  | create fn arg n m =>
      obtain ⟨⟨who, hc⟩, hfn, -⟩ := id hl
      obtain ⟨f, rfl⟩ := Option.ne_none_iff_exists'.mp hfn
      exact h.exec_create hc f arg n hl
        (lt_of_le_of_ne h.count fun e => hfull ⟨⟨_, _, _, _, rfl⟩, e⟩)
  | free co =>
      obtain ⟨⟨who, hc⟩, a, rfl, hal, hd⟩ := hl
      simp only [step_user hc, call_free, event]
      exact h.step_free hc hal hd
  | yield =>
      obtain ⟨c, hc⟩ := hl
      simp only [step_user hc, call_yield, event, self_eq hc]
      exact h.step_yield (hat trivial) hc
  | await other =>
      obtain ⟨⟨c, hc⟩, a, rfl, hal⟩ := hl
      simp only [step_user hc, call_await, event, self_eq hc, Option.map_some, Option.getD_some,
        Option.some.injEq]
      by_cases hd : (s.mem a).state = .done
      · rw [if_pos hd]
        exact ⟨s, coAwait_of_done hd, .await (abs_ctl_user hc) ((h.inState_iff hal).mpr hd), h⟩
      · rw [if_neg hd]
        exact h.step_block (hat hd) hc hal hd
  | run =>
      obtain ⟨who, hc⟩ := hl
      simp only [step_user hc, call_run, event, hc]
      exact ⟨_, rfl, h.step_run hc⟩
  | state co =>
      obtain ⟨⟨who, hc⟩, a, rfl, hal⟩ := hl
      simp only [step_user hc, call_state]
      exact ⟨s, rfl, .sawState (abs_ctl_user hc) ((h.inState_iff hal).mpr rfl), h⟩
  | id =>
      obtain ⟨who, hc⟩ := hl
      simp only [step_user hc, call_id, event, h.coId_eq (hat trivial) hc]
      exact ⟨s, rfl, .sawId (abs_ctl_user hc), h⟩
  | ret =>
      obtain ⟨c, hc⟩ := hl
      simp only [step_user hc, call_ret_body, event, self_eq hc, hc]
      exact h.step_ret (hat trivial) hc
  | sched =>
      obtain ⟨who, hc⟩ := hl
      simp only [step_loop hc]
      cases hq : s.runQueue with
      | nil =>
          simp only [event, hq, hc]
          exact h.step_return hc hq
      | cons co rest => exact h.step_resume hc hq

/-- A legal step faults on a full table only. -/
theorem step_tableFull (hl : s.Legal a) (hfull : s.TableFull a) :
    s.step a = .error .tooManyCoroutines := by
  obtain ⟨⟨fn, arg, n, m, rfl⟩, hcount⟩ := hfull
  obtain ⟨⟨who, hc⟩, hfn, -⟩ := hl
  obtain ⟨f, rfl⟩ := Option.ne_none_iff_exists'.mp hfn
  simp [step_user hc, coCreate, hcount, Except.map]

/-- A body that executes is in no `co_run` of its own. -/
theorem Inv.not_framed (h : s.Inv) {c : Addr} (hc : s.ctl = .user (some c)) :
    some c ∉ s.frames := fun hm =>
  h.ideal.not_framed (abs_ctl_user hc) (List.mem_map.mpr ⟨some c, hm, rfl⟩)

/-- **A stranded body cannot suspend**: the calls that would switch to `S.main_ctx` fault. -/
theorem Inv.attached_of_step (h : s.Inv) (hs : Step s a s') (hr : s.Relies a) (ha : a ≠ .id) :
    s.Attached := by
  intro c hc
  refine (h.control_body hc).elim And.left fun hstr => ?_
  obtain ⟨hrun, hm⟩ := hstr
  obtain ⟨hl, hs⟩ := hs
  exfalso
  cases a with
  | yield =>
      rw [step_user hc, call_yield, coYield_outside hrun] at hs
      cases hs
  | await other =>
      obtain ⟨-, b, rfl, -⟩ := hl
      rw [step_user hc, call_await, coAwait_outside hr hrun] at hs
      cases hs
  | ret =>
      rw [step_user hc, call_ret_body, coEntryRet_of_gone (by simp [(h.running_of_ctl hc).2]) hm
        (h.not_framed hc) ((h.room c).trans h.lt_queueCap.le)] at hs
      cases hs
  | id => exact ha rfl
  | create | free | run | state | sched => exact hr

/-- **A step refines the ideal scheduler**, when `co_id` is asked by a body that is not stranded. -/
theorem Inv.refines (h : s.Inv) (hs : Step s a s') (hid : a = .id → s.Attached) :
    Ideal.Step s.abs (s.event a) s'.abs ∧ s'.Inv := by
  by_cases hfull : s.TableFull a
  · rw [Step, step_tableFull hs.1 hfull] at hs
    cases hs.2
  · have hat : s.Relies a → s.Attached := by
      intro hr
      by_cases ha : a = .id
      · exact hid ha
      · exact h.attached_of_step hs hr ha
    obtain ⟨s'', he, hr⟩ := h.exec hs.1 hfull hat
    rw [hs.2] at he
    cases he
    exact hr

theorem step_id (hs : Step s .id s') : s' = s := by
  obtain ⟨⟨who, hc⟩, hs⟩ := hs
  rw [step_user hc, call_id] at hs
  cases hs
  rfl

theorem Inv.kept (h : s.Inv) (hs : Step s a s') : s'.Inv := by
  by_cases ha : a = .id
  · subst ha; exact step_id hs ▸ h
  · exact (h.refines hs fun e => absurd e ha).2

/-- **Every step of every program keeps the invariant.** -/
theorem inv_of_reachable (h : Reachable Step (init : State Fn Arg) s) : s.Inv :=
  h.invariant inv_init fun _ _ _ hs hst => hs.kept hst

/-! ### Control -/

/-- The step `a` from `s` to `s'`, as far as control goes. -/
inductive ControlStep (s : State Fn Arg) : Act Fn Arg → State Fn Arg → Prop where
  /-- A call that returns to its caller. -/
  | stays {a : Act Fn Arg} {s' : State Fn Arg} {who : Option Addr} (hc : s.ctl = .user who)
      (ha : a ≠ .run) (hs : a ≠ .sched) (hctl : s'.ctl = .user who)
      (hr : s'.running = s.running) (hm : s'.mainCtx = s.mainCtx) (hf : s'.frames = s.frames)
      (he : (s.event a).idle = none) : ControlStep s a s'
  /-- `co_yield`, `co_await` or the end of a body: back to the innermost scheduler loop. -/
  | suspends {a : Act Fn Arg} {s' : State Fn Arg} {c : Addr} {o : Option Addr}
      {rest : List (Option Addr)} (hc : s.ctl = .user (some c)) (ha : a ≠ .run) (hs : a ≠ .sched)
      (hf : s.frames = o :: rest) (hctl : s'.ctl = .loop o) (hr : s'.running = none)
      (hf' : s'.frames = s.frames) (he : (s.event a).idle = some true) : ControlStep s a s'
  | calls {who : Option Addr} (hc : s.ctl = .user who) : ControlStep s .run (s.coRun who)
  | returns {who : Option Addr} {rest : List (Option Addr)} (hc : s.ctl = .loop who)
      (hq : s.runQueue = []) (hf : s.frames = who :: rest) :
      ControlStep s .sched { s with ctl := .user who, frames := rest }
  | resumes {s' : State Fn Arg} {who : Option Addr} {co : Addr} {rest : List Addr}
      (hc : s.ctl = .loop who) (hq : s.runQueue = co :: rest) (hctl : s'.ctl = .user (some co))
      (hr : s'.running = some co) (hm : s'.mainCtx = .inResume who) (hf : s'.frames = s.frames) :
      ControlStep s .sched s'

/-- A turn on an empty run-queue. -/
theorem ControlStep.returned (h : s.ControlStep .sched s') {who : Option Addr}
    (hc : s.ctl = .loop who) (hq : s.runQueue = []) :
    ∃ rest, s.frames = who :: rest ∧ s' = { s with ctl := .user who, frames := rest } := by
  cases h with
  | stays _ _ hs _ _ _ _ _ => exact absurd rfl hs
  | suspends _ _ hs _ _ _ _ _ => exact absurd rfl hs
  | returns hc' _ hf =>
      obtain rfl := Ctl.loop.inj (hc.symm.trans hc')
      exact ⟨_, hf, rfl⟩
  | resumes _ hq' _ _ _ _ => rw [hq] at hq'; cases hq'

/-- A turn on a run-queue that starts with `co`. -/
theorem ControlStep.resumed (h : s.ControlStep .sched s') {who : Option Addr} {co : Addr}
    {rest : List Addr} (hc : s.ctl = .loop who) (hq : s.runQueue = co :: rest) :
    s'.ctl = .user (some co) ∧ s'.mainCtx = .inResume who ∧ s'.frames = s.frames := by
  cases h with
  | stays _ _ hs _ _ _ _ _ => exact absurd rfl hs
  | suspends _ _ hs _ _ _ _ _ => exact absurd rfl hs
  | returns _ hq' _ => rw [hq] at hq'; cases hq'
  | resumes hc' hq' hctl _ hm hf =>
      obtain rfl := Ctl.loop.inj (hc.symm.trans hc')
      rw [hq, List.cons.injEq] at hq'
      exact ⟨hq'.1 ▸ hctl, hm, hf⟩

/-- **The control of a step.** -/
theorem Inv.controlStep (h : s.Inv) (hs : Step s a s') : s.ControlStep a s' := by
  have hat := fun hr ha => h.attached_of_step hs hr ha
  obtain ⟨hl, hs⟩ := hs
  cases a with
  | create fn arg n m =>
      obtain ⟨who, o, hc, he⟩ := step_create_inv hs
      obtain ⟨f, rfl, -, ⟨rfl, -, rfl⟩ | ⟨co, rfl, -, rfl⟩ | ⟨co, stack, hq, rfl, -, rfl⟩⟩ :=
        coCreate_inv he
      all_goals exact .stays hc (by simp) (by simp) hc rfl rfl rfl rfl
  | free co =>
      obtain ⟨⟨who, hc⟩, b, rfl, hb, hd⟩ := hl
      simp only [step_user hc, call_free, coFree_of_done hd] at hs
      cases hs
      exact .stays hc (by simp) (by simp) hc rfl rfl rfl rfl
  | yield =>
      obtain ⟨c, hc⟩ := hl
      obtain ⟨hr, o, rest, hf, hm⟩ := h.holds (hat trivial (by simp)) hc
      simp only [step_user hc, call_yield, coYield_eq hr hm (mem_frames hf)
        h.size_lt] at hs
      cases hs
      exact .suspends hc (by simp) (by simp) hf rfl rfl rfl rfl
  | await other =>
      obtain ⟨⟨c, hc⟩, b, rfl, hb⟩ := hl
      by_cases hd : (s.mem b).state = .done
      · simp only [step_user hc, call_await, coAwait_of_done hd] at hs
        cases hs
        exact .stays hc (by simp) (by simp) hc rfl rfl rfl (by simp [event, hd, Ev.idle])
      · obtain ⟨hr, o, rest, hf, hm⟩ := h.holds (hat hd (by simp)) hc
        simp only [step_user hc, call_await, coAwait_eq hd hr hm (mem_frames hf)] at hs
        cases hs
        exact .suspends hc (by simp) (by simp) hf rfl rfl rfl (by simp [event, hd, Ev.idle])
  | run =>
      obtain ⟨who, hc⟩ := hl
      simp only [step_user hc, call_run] at hs
      cases hs
      exact .calls hc
  | state co =>
      obtain ⟨⟨who, hc⟩, b, rfl, hb⟩ := hl
      simp only [step_user hc, call_state] at hs
      cases hs
      exact .stays hc (by simp) (by simp) hc rfl rfl rfl rfl
  | id =>
      obtain ⟨who, hc⟩ := hl
      simp only [step_user hc, call_id] at hs
      cases hs
      exact .stays hc (by simp) (by simp) hc rfl rfl rfl rfl
  | ret =>
      obtain ⟨c, hc⟩ := hl
      obtain ⟨hr, o, rest, hf, hm⟩ := h.holds (hat trivial (by simp)) hc
      obtain ⟨q', he, -⟩ := coEntryRet_eq (by simp [(h.running_of_ctl hc).2]) hm
        (mem_frames hf) ((h.room c).trans h.lt_queueCap.le)
      simp only [step_user hc, call_ret_body, he] at hs
      cases hs
      exact .suspends hc (by simp) (by simp) hf rfl rfl rfl rfl
  | sched =>
      obtain ⟨who, hc⟩ := hl
      obtain ⟨frest, hf⟩ := h.control_loop hc
      simp only [step_loop hc] at hs
      cases hq : s.runQueue with
      | nil =>
          rw [runLoop_nil hq, hf, List.erase_cons_head] at hs
          cases hs
          exact .returns hc hq hf
      | cons co rest =>
          obtain ⟨hl, hst⟩ := h.mem_runQueue.mp (hq ▸ List.mem_cons_self : co ∈ s.runQueue)
          obtain ⟨q', he, -⟩ := runLoop_cons who hq hst (h.ctx co hl hst) (h.fn co hl)
          rw [he] at hs
          cases hs
          exact .resumes hc hq rfl rfl rfl rfl

/-- What is in `S.running` after a step, as far as the event tells. -/
theorem Inv.running_none_iff (h : s.Inv) (hs : Step s a s') :
    s'.running = none ↔ (s.event a).idle.elim (s.running = none) (· = true) := by
  cases h.controlStep hs with
  | stays _ _ _ _ hr _ _ he => rw [he, hr]; rfl
  | suspends _ _ _ _ _ hr _ he => simp [he, hr]
  | calls _ => rfl
  | returns _ hq _ => simp [event, hq, Ev.idle]
  | resumes _ hq _ hr _ _ => simp [event, hq, hr, Ev.idle]

/-- Only a stranding return strands a body. -/
theorem Inv.attached_step (h : s.Inv) (hs : Step s a s') (hat : s.Attached)
    (hn : a = .sched → ¬ s.StrandingReturn) : s'.Attached := by
  intro c hc
  cases h.controlStep hs with
  | stays hc₀ _ _ hctl hr _ _ _ =>
      rw [hctl] at hc
      rw [hr]
      exact hat c (hc₀.trans hc)
  | suspends _ _ _ _ hctl _ _ _ => rw [hctl] at hc; cases hc
  | calls _ => cases hc
  | returns hc₀ hq hf =>
      obtain rfl := Ctl.user.inj hc
      refine (h.control_nested hc₀ hf).elim And.left fun hstr => ?_
      exact absurd ⟨hq, hstr.1, c, hc₀⟩ (hn rfl)
  | resumes _ _ hctl hr _ _ =>
      rw [hctl] at hc
      cases hc
      exact hr

end State

end CCoroutine
