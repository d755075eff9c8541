import CCoroutine.Scheduler.Queue

/-!
# Scheduler — Calls

Each API function in closed form: the state it leaves, under what it relies on.  A suspending
call relies on `S.main_ctx` holding the `resume` of a `co_run` in progress; a resumption relies
on the context of the coroutine leading back into its own body (`Ctx.body`).
-/

namespace CCoroutine
open Support (Ring)

/-- The body that a context continues, if it does. -/
def Ctx.body : Ctx → Option Addr
  | .trampoline co => some co
  | .inYield who => who
  | .inAwait who _ => who
  | .zero | .inResume _ | .inEntry _ => none

namespace State

variable {Fn Arg : Type} {s s' : State Fn Arg}

/-- A switch changes what executes, and nothing else. -/
theorem switchTo_inv {ctx : Ctx} (h : s.switchTo ctx = .ok s') :
    ∃ r c, s' = { s with running := r, ctl := c } := by
  cases ctx with
  | zero | inEntry => cases h
  | trampoline co =>
      simp only [switchTo, coEntry] at h
      split at h <;> cases h
      exact ⟨s.running, _, rfl⟩
  | inYield | inAwait => cases h; exact ⟨s.running, _, rfl⟩
  | inResume who =>
      simp only [switchTo] at h
      split at h <;> cases h
      exact ⟨none, _, rfl⟩

theorem switchTo_body {co : Addr} {ctx : Ctx} (h : ctx.body = some co)
    (hf : (s.mem co).fn ≠ none) : s.switchTo ctx = .ok { s with ctl := .user (some co) } := by
  obtain ⟨f, hf⟩ := Option.ne_none_iff_exists'.mp hf
  cases ctx with
  | trampoline c =>
      obtain rfl : c = co := Option.some.inj h
      simp [switchTo, coEntry, hf]
  | inYield who =>
      obtain rfl : who = some co := h
      rfl
  | inAwait who other =>
      obtain rfl : who = some co := h
      rfl
  | zero | inResume _ | inEntry _ => cases h

/-! ### A step, by who makes it -/

section
variable {a : Act Fn Arg} {who : Option Addr}

theorem step_user (hc : s.ctl = .user who) : s.step a = s.call who a := by
  simp only [step, stepUpTo, hc, call]

theorem step_loop (hc : s.ctl = .loop who) : s.step .sched = s.runLoop who := by
  simp only [step, stepUpTo, hc, runLoop]

/-- The loop of `co_run` calls nothing of the API. -/
theorem eq_sched_of_loop (hc : s.ctl = .loop who) (h : s.step a = .ok s') : a = .sched := by
  cases a with
  | sched => rfl
  | create | free | yield | await | run | state | id | ret =>
      simp only [step, stepUpTo, hc] at h
      cases h

@[simp] theorem call_create (s : State Fn Arg) (who : Option Addr) (fn : Option Fn)
    (arg : Option Arg) (n : ℕ) (m : Alloc) :
    s.call who (.create fn arg n m) = (s.coCreate fn arg n m).map Prod.snd := by
  rw [call, callUpTo]
  cases s.coCreate fn arg n m <;> rfl

@[simp] theorem call_free (s : State Fn Arg) (who co : Option Addr) :
    s.call who (.free co) = s.coFree co := by
  rw [call, callUpTo]
  cases s.coFree co <;> rfl

@[simp] theorem call_state (s : State Fn Arg) (who co : Option Addr) :
    s.call who (.state co) = (s.coState co).map fun _ => s := by
  rw [call, callUpTo]
  cases s.coState co <;> rfl

@[simp] theorem call_yield (s : State Fn Arg) (who : Option Addr) :
    s.call who .yield = s.coYield who := rfl

@[simp] theorem call_await (s : State Fn Arg) (who other : Option Addr) :
    s.call who (.await other) = s.coAwait who other := rfl

@[simp] theorem call_run (s : State Fn Arg) (who : Option Addr) :
    s.call who .run = .ok (s.coRun who) := rfl

@[simp] theorem call_id (s : State Fn Arg) (who : Option Addr) : s.call who .id = .ok s := rfl

@[simp] theorem call_ret_body (s : State Fn Arg) (co : Addr) :
    s.call (some co) .ret = s.coEntryRet co := rfl

end

/-! ### The functions -/

/-- `co` has been created, with the record `r`. -/
def created (s : State Fn Arg) (co : Addr) (r : Coroutine Fn Arg) (q : Ring Addr queueCap) :
    State Fn Arg :=
  { s with
    mem := Function.update s.mem co r
    live := Function.update s.live co true
    all := s.all ++ [co]
    q := q }

theorem coCreate_of_ok {f : Fn} {arg : Option Arg} {n : ℕ} {co stack : Addr}
    (hcount : s.all.length < maxCoroutines) (hq : s.q.size < queueCap) :
    s.coCreate (some f) arg n (.ok co stack) =
      .ok (some co, s.created co (s.newCo f arg n co stack) (s.q.push co hq)) := by
  simp [coCreate, hcount, qPush, hq, modCo, newCo, bind, Except.bind, created]

theorem coCreate_of_mallocFails {f : Fn} {arg : Option Arg} {n : ℕ} {co : Addr}
    (hcount : s.all.length < maxCoroutines) :
    s.coCreate (some f) arg n (.mallocFails co) =
      .ok (none, { s with mem := Function.update s.mem co .zeroed }) := by
  simp [coCreate, hcount, modCo]

theorem coCreate_of_callocFails {f : Fn} {arg : Option Arg} {n : ℕ}
    (hcount : s.all.length < maxCoroutines) :
    s.coCreate (some f) arg n .callocFails = .ok (none, s) := by
  simp [coCreate, hcount]

/-- **What `co_create` can do**, when it returns. -/
theorem coCreate_inv {fn : Option Fn} {arg : Option Arg} {n : ℕ} {m : Alloc} {o : Option Addr}
    (h : s.coCreate fn arg n m = .ok (o, s')) :
    ∃ f, fn = some f ∧ s.all.length < maxCoroutines ∧
      ((m = .callocFails ∧ o = none ∧ s' = s) ∨
        (∃ co, m = .mallocFails co ∧ o = none ∧
          s' = { s with mem := Function.update s.mem co .zeroed }) ∨
        ∃ co stack hq, m = .ok co stack ∧ o = some co ∧
          s' = s.created co (s.newCo f arg n co stack) (s.q.push co hq)) := by
  cases fn with
  | none => cases h
  | some f =>
      by_cases hcount : s.all.length < maxCoroutines
      · refine ⟨f, rfl, hcount, ?_⟩
        cases m with
        | callocFails =>
            rw [coCreate_of_callocFails hcount] at h
            cases h
            exact .inl ⟨rfl, rfl, rfl⟩
        | mallocFails co =>
            rw [coCreate_of_mallocFails hcount] at h
            cases h
            exact .inr (.inl ⟨co, rfl, rfl, rfl⟩)
        | ok co stack =>
            by_cases hq : s.q.size < queueCap
            · rw [coCreate_of_ok hcount hq] at h
              cases h
              exact .inr (.inr ⟨co, stack, hq, rfl, rfl, rfl⟩)
            · simp [coCreate, hcount, modCo, qPush, hq, bind, Except.bind] at h
      · simp [coCreate, hcount] at h

theorem step_create_inv {fn : Option Fn} {arg : Option Arg} {n : ℕ} {m : Alloc}
    (h : s.step (.create fn arg n m) = .ok s') :
    ∃ who o, s.ctl = .user who ∧ s.coCreate fn arg n m = .ok (o, s') := by
  cases hc : s.ctl with
  | loop who => cases eq_sched_of_loop hc h
  | user who =>
      rw [step_user hc, call_create] at h
      cases he : s.coCreate fn arg n m with
      | error e => rw [he] at h; cases h
      | ok r =>
          rw [he] at h
          cases h
          exact ⟨who, r.1, rfl, rfl⟩

/-- `co` has been freed. -/
def freed (s : State Fn Arg) (co : Addr) : State Fn Arg :=
  { s with
    live := Function.update s.live co false
    released := Function.update s.released (s.mem co).id (some (s.mem co)) }

theorem coFree_of_done {co : Addr} (hd : (s.mem co).state = .done) :
    s.coFree (some co) = .ok (s.freed co) := by
  simp [coFree, hd, freed]

theorem coFree_inv {o : Option Addr} (h : s.coFree o = .ok s') :
    ∃ co, o = some co ∧ s' = s.freed co := by
  cases o with
  | none => cases h
  | some co =>
      simp only [coFree] at h
      split at h <;> cases h
      exact ⟨co, rfl, rfl⟩

/-- `co` has left its body with the record `r`, and control is back in the loop on `o`. -/
def suspended (s : State Fn Arg) (co : Addr) (r : Coroutine Fn Arg) (q : Ring Addr queueCap)
    (o : Option Addr) : State Fn Arg :=
  { s with mem := Function.update s.mem co r, q := q, running := none, ctl := .loop o }

theorem coYield_eq {co : Addr} {who o : Option Addr} (hr : s.running = some co)
    (hm : s.mainCtx = .inResume o) (ho : o ∈ s.frames) (hq : s.q.size < queueCap) :
    s.coYield who = .ok (s.suspended co { s.mem co with state := .ready, ctx := .inYield who }
      (s.q.push co hq) o) := by
  simp [coYield, coYieldUpTo, hr, qPush, hq, Outcome.finish, save, ctxOf, modCo, switchTo, hm, ho,
    bind, Except.bind, suspended]

theorem coYield_outside {who : Option Addr} (hr : s.running = none) :
    s.coYield who = .error .yieldOutside := by
  simp [coYield, coYieldUpTo, hr, Except.bind]

theorem coAwait_of_done {other : Addr} {who : Option Addr} (hd : (s.mem other).state = .done) :
    s.coAwait who (some other) = .ok s := by
  simp [coAwait, coAwaitUpTo, hd, Except.bind, Outcome.finish]

theorem coAwait_eq {co other : Addr} {who o : Option Addr} (hd : (s.mem other).state ≠ .done)
    (hr : s.running = some co) (hm : s.mainCtx = .inResume o) (ho : o ∈ s.frames) :
    s.coAwait who (some other) = .ok (s.suspended co { s.mem co with
      state := .waiting, awaiting := some other, ctx := .inAwait who other } s.q o) := by
  simp [coAwait, coAwaitUpTo, hd, hr, Except.bind, Outcome.finish, save, ctxOf, modCo, switchTo, hm,
    ho, suspended]

theorem coAwait_outside {other : Addr} {who : Option Addr} (hd : (s.mem other).state ≠ .done)
    (hr : s.running = none) : s.coAwait who (some other) = .error .awaitOutside := by
  simp [coAwait, coAwaitUpTo, hd, hr, Except.bind]

/-- A coroutine that is not waiting is none of the waiters, done or not. -/
theorem waiters_modCo_done {co : Addr} (h : (s.mem co).state ≠ .waiting) :
    (s.modCo co fun r => { r with state := .done }).waiters co = s.waiters co := by
  unfold waiters
  congr 1
  refine List.filter_congr fun a _ => ?_
  by_cases e : a = co
  · subst e; simp [waitsOn, modCo, h]
  · simp [waitsOn, modCo, e]

/-- The memory after `co` has returned and its waiters have been woken. -/
def finishMem (s : State Fn Arg) (co a : Addr) : Coroutine Fn Arg :=
  if a = co then { s.mem co with state := .done, ctx := .inEntry (some co) }
  else s.wokenMem (s.waiters co) a

/-- `co` has returned, and control is back in the loop on `o`. -/
def finished (s : State Fn Arg) (co : Addr) (q : Ring Addr queueCap) (o : Option Addr) :
    State Fn Arg :=
  { s with mem := s.finishMem co, q := q, running := none, ctl := .loop o }

/-- The switch of `co_entry` comes after the wakeups. -/
theorem coEntryRet_eq_bind (s : State Fn Arg) (co : Addr) :
    s.coEntryRet co = (s.modCo co fun r => { r with state := .done }).wakeupWaiters co >>= fun s' =>
      (s'.modCo co fun r => { r with ctx := .inEntry (some co) }).switchTo s'.mainCtx := by
  unfold coEntryRet coEntryRetUpTo
  cases (s.modCo co fun r => { r with state := .done }).wakeupWaiters co <;> rfl

theorem coEntryRet_eq {co : Addr} {o : Option Addr} (hs : (s.mem co).state ≠ .waiting)
    (hm : s.mainCtx = .inResume o) (ho : o ∈ s.frames)
    (hroom : s.q.size + (s.waiters co).length ≤ queueCap) :
    ∃ q', s.coEntryRet co = .ok (s.finished co q' o) ∧
      q'.toList = s.runQueue ++ s.waiters co := by
  obtain ⟨q', he, hq⟩ := wakeupWaiters_eq (s.modCo co fun r => { r with state := .done }) co
    (by rw [waiters_modCo_done hs]; exact hroom)
  rw [waiters_modCo_done hs] at he hq
  refine ⟨q', ?_, hq⟩
  have hco : co ∉ s.waiters co := fun h => hs (mem_waiters.mp h).2.1
  simp only [coEntryRet_eq_bind, he, bind, Except.bind]
  simp only [modCo, hm, switchTo, if_pos ho, finished]
  congr 2
  funext a
  by_cases e : a = co
  · subst e; simp [finishMem, wokenMem, hco]
  · by_cases ha : a ∈ s.waiters co <;> simp [finishMem, wokenMem, e, ha]

/-- The loop in `S.main_ctx` has returned. -/
theorem coEntryRet_of_gone {co : Addr} {o : Option Addr} (hs : (s.mem co).state ≠ .waiting)
    (hm : s.mainCtx = .inResume o) (ho : o ∉ s.frames)
    (hroom : s.q.size + (s.waiters co).length ≤ queueCap) :
    s.coEntryRet co = .error .wildJump := by
  obtain ⟨q', he, -⟩ := wakeupWaiters_eq (s.modCo co fun r => { r with state := .done }) co
    (by rw [waiters_modCo_done hs]; exact hroom)
  simp only [coEntryRet_eq_bind, he, bind, Except.bind]
  simp only [modCo, hm, switchTo, if_neg ho]

theorem runLoop_nil {who : Option Addr} (hq : s.runQueue = []) :
    s.runLoop who = .ok { s with ctl := .user who, frames := s.frames.erase who } := by
  simp [runLoop, runLoopUpTo, qPop_nil hq, Except.bind, Outcome.finish]

/-- The loop on `who` has resumed `co`. -/
def resumed (s : State Fn Arg) (who : Option Addr) (co : Addr) (q : Ring Addr queueCap) :
    State Fn Arg :=
  { s with
    mem := Function.update s.mem co { s.mem co with state := .running }
    q := q
    running := some co
    mainCtx := .inResume who
    ctl := .user (some co) }

theorem runLoop_cons (who : Option Addr) {co : Addr} {rest : List Addr}
    (hq : s.runQueue = co :: rest) (hr : (s.mem co).state = .ready)
    (hc : (s.mem co).ctx.body = some co) (hf : (s.mem co).fn ≠ none) :
    ∃ q', s.runLoop who = .ok (s.resumed who co q') ∧ q'.toList = rest := by
  obtain ⟨q', hp, hq'⟩ := qPop_cons hq
  refine ⟨q', ?_, hq'⟩
  simp only [runLoop, runLoopUpTo, hp, if_pos hr, Except.bind, resumeUpTo, Outcome.finish, save,
    ctxOf, modCo, Function.update_self]
  exact switchTo_body hc (by simpa using hf)

end State

end CCoroutine
