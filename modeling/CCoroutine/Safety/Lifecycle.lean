import CCoroutine.Safety.RunQueue

/-!
# Safety — Lifecycle

The states each coroutine goes through along a run, when its body executes and its function is
called, and why freeing a finished coroutine is safe: nothing refers to it and nothing will resume
it, although it was marked done while it still executed on its own stack.
-/

namespace CCoroutine
open CCoroutine.Ideal (Sys Ev Edge)
open Support (Run)

/-! ### A resumption -/

namespace State

variable {Fn Arg : Type} {s s' : State Fn Arg} {a : Act Fn Arg}

/-- A switch to `co` goes through `co_trampoline` into `co_entry(co)`, which calls `fn(arg)`. -/
def Begins (s : State Fn Arg) (co : Addr) (fn : Option Fn) (arg : Option Arg) : Prop :=
  (s.mem co).ctx = .trampoline co ∧ (s.mem co).fn = fn ∧ (s.mem co).arg = arg

/-- A switch to `co` continues its body, behind a `co_yield` or a `co_await` of its own. -/
def Continues (s : State Fn Arg) (co : Addr) : Prop :=
  (s.mem co).ctx = .inYield (some co) ∨ ∃ other, (s.mem co).ctx = .inAwait (some co) other

/-- **A resumption** is a switch to an unfreed coroutine, which begins when the label says that the
function is called and continues otherwise; after it the coroutine is running and executes. -/
theorem InvM.resumes {k : ℕ} {call : Option (Option Fn × Option Arg)} (h : s.InvM)
    (hs : StepM s a s') (he : s.event a = .resumed k call) :
    ∃ co, s.live co = true ∧ s.idOf co = k ∧
      (s'.ctl = .user (some co) ∧ s'.running = some co ∧ (s'.mem co).state = .running) ∧
      (∀ fn arg, call = some (fn, arg) → s.Begins co fn arg) ∧ (call = none → s.Continues co) := by
  obtain rfl : a = .sched := causes_of_event he
  obtain ⟨⟨⟨who, hc⟩, hstep⟩, -⟩ := hs
  cases hq : s.runQueue with
  | nil => simp [event, hq] at he
  | cons co rest =>
      obtain ⟨hl, hst⟩ := h.mem_runQueue.mp (hq ▸ List.mem_cons_self : co ∈ s.runQueue)
      have hbody := h.ctx co hl hst
      obtain ⟨q', hrun, -⟩ := runLoop_cons who hq hst hbody (h.fn co hl)
      rw [step_loop hc, hrun] at hstep
      cases hstep
      simp only [event, hq, Ev.resumed.injEq] at he
      obtain ⟨hid, rfl⟩ := he
      refine ⟨co, hl, hid, ⟨rfl, rfl, by simp [resumed]⟩, ?_⟩
      unfold Begins Continues
      -- a ready coroutine is where `co_create`, its `co_yield` or its `co_await` has left it
      cases hctx : (s.mem co).ctx with
      | trampoline c =>
          obtain rfl : c = co := by simpa [hctx, Ctx.body] using hbody
          simp [Coroutine.task, hst, hctx, Ctx.isTrampoline]
      | inYield w | inAwait w other =>
          obtain rfl : w = some co := by simpa [hctx, Ctx.body] using hbody
          simp [Coroutine.task, hctx, Ctx.isTrampoline]
      | zero | inResume | inEntry => simp [hctx, Ctx.body] at hbody

end State

namespace Execution

variable {Fn Arg : Type} {r : Execution Fn Arg} {i j k m p : ℕ}

/-! ### When the function is called -/

/-- What has been created does not vanish. -/
theorem task_ne_none (hij : i ≤ j) (hj : (j : ℕ∞) ≤ r.len) (h : (r.st i).abs.task k ≠ none) :
    (r.st j).abs.task k ≠ none := by
  induction hij with
  | refl => exact h
  | step _ ih =>
      have hlt := Run.lt_of_succ_le hj
      obtain ⟨t, ht⟩ := Option.ne_none_iff_exists'.mp (ih hlt.le)
      obtain ⟨u, hu, -⟩ := (ideal hlt).keeps (inv hlt.le).ideal ht
      rw [hu]
      exact Option.some_ne_none u

/-- A coroutine is resumed after it has been created. -/
theorem lt_of_created {fn : Option Fn} {arg : Option Arg}
    {call : Option (Option Fn × Option Arg)} (hp : (p : ℕ∞) < r.len)
    (hcr : r.event p = .created k fn arg) (hm : (m : ℕ∞) < r.len)
    (hres : r.event m = .resumed k call) : p < m := by
  by_contra hle
  have hcreate := ideal_of_event hp hcr
  have hresume := ideal_of_event hm hres
  obtain ⟨t, q, ht, -⟩ := hresume.resumed_inv
  refine task_ne_none (not_lt.mp hle) hp.le ?_ (hcreate.created_inv (inv hp.le).ideal).1
  rw [ht]
  exact Option.some_ne_none t

/-- After its creation a coroutine has the function and the argument it was created with, and is
started once it has been resumed. -/
theorem started_iff {fn : Option Fn} {arg : Option Arg} (hp : (p : ℕ∞) < r.len)
    (hcr : r.event p = .created k fn arg) (hpm : p < m) (hm : (m : ℕ∞) ≤ r.len) :
    ∃ t, (r.st m).abs.task k = some t ∧ t.fn = fn ∧ t.arg = arg ∧
      (t.started = true ↔ ∃ n < m, ∃ call, r.event n = .resumed k call) := by
  induction hpm with
  | refl =>
      have hstep := ideal_of_event hp hcr
      refine ⟨_, (hstep.created_inv (inv hp.le).ideal).2, rfl, rfl, ?_⟩
      refine iff_of_false (by simp) ?_
      rintro ⟨n, hn, call, hres⟩
      have hn' : (n : ℕ∞) < r.len := lt_of_le_of_lt (by exact_mod_cast Nat.le_of_lt_succ hn) hp
      have := lt_of_created hp hcr hn' hres
      omega
  | @step m hpm ih =>
      have hlt := Run.lt_of_succ_le hm
      obtain ⟨t, ht, hfn, harg, hst⟩ := ih hlt.le
      obtain ⟨u, hu, hfn', harg', hst'⟩ := (ideal hlt).keeps (inv hlt.le).ideal ht
      refine ⟨u, hu, hfn'.trans hfn, harg'.trans harg, ?_⟩
      rw [hst', hst]
      constructor
      · rintro (⟨n, hn, hres⟩ | hres)
        · exact ⟨n, hn.trans m.lt_succ_self, hres⟩
        · exact ⟨m, m.lt_succ_self, hres⟩
      · rintro ⟨n, hn, hres⟩
        rcases Nat.lt_succ_iff_lt_or_eq.mp hn with hn | rfl
        · exact .inl ⟨n, hn, hres⟩
        · exact .inr hres

/-- The call of the function, in each resumption. -/
theorem call_eq {fn : Option Fn} {arg : Option Arg} {call : Option (Option Fn × Option Arg)}
    (hp : (p : ℕ∞) < r.len) (hcr : r.event p = .created k fn arg) (hm : (m : ℕ∞) < r.len)
    (hres : r.event m = .resumed k call) :
    ((∀ n < m, ∀ call', r.event n ≠ .resumed k call') → call = some (fn, arg)) ∧
      ((∃ n < m, ∃ call', r.event n = .resumed k call') → call = none) := by
  obtain ⟨t, ht, rfl, rfl, hst⟩ := started_iff hp hcr (lt_of_created hp hcr hm hres) hm.le
  have hstep := ideal_of_event hm hres
  obtain ⟨t', q, ht', -, hcall⟩ := hstep.resumed_inv
  rw [ht] at ht'
  cases ht'
  rw [hcall]
  refine ⟨fun hn => if_neg fun h => ?_, fun hn => if_pos (hst.mpr hn)⟩
  obtain ⟨n, hn', call', he⟩ := hst.mp h
  exact hn n hn' call' he

/-- **The call of the function**: it is called at the first resumption, with the argument of
`co_create`; after that the body continues where it was suspended. -/
theorem entered {fn : Option Fn} {arg : Option Arg} {call : Option (Option Fn × Option Arg)}
    (hp : (p : ℕ∞) < r.len) (hcr : r.event p = .created k fn arg) (hm : (m : ℕ∞) < r.len)
    (hres : r.event m = .resumed k call) :
    ∃ co, (r.st m).live co = true ∧ (r.st m).idOf co = k ∧
      ((r.st (m + 1)).ctl = .user (some co) ∧ (r.st (m + 1)).running = some co ∧
        ((r.st (m + 1)).mem co).state = .running) ∧
      ((∀ n < m, ∀ call', r.event n ≠ .resumed k call') →
        call = some (fn, arg) ∧ (r.st m).Begins co fn arg) ∧
      ((∃ n < m, ∃ call', r.event n = .resumed k call') →
        call = none ∧ (r.st m).Continues co) := by
  obtain ⟨hfirst, hlater⟩ := call_eq hp hcr hm hres
  obtain ⟨co, hl, hid, hafter, hbegins, hcontinues⟩ := (inv hm.le).resumes (r.next m hm) hres
  exact ⟨co, hl, hid, hafter, fun hn => ⟨hfirst hn, hbegins fn arg (hfirst hn)⟩,
    fun hn => ⟨hlater hn, hcontinues (hlater hn)⟩⟩

/-! ### A finished coroutine -/

/-- A done coroutine is never resumed. -/
theorem not_resumed_of_done (him : i ≤ m) (hm : (m : ℕ∞) < r.len)
    (hd : (r.st i).abs.InState k .done) (call : Option (Option Fn × Option Arg)) :
    r.event m ≠ .resumed k call := by
  intro hres
  have hr := (ideal_of_event hm hres).ready_of_resumed (inv hm.le).ideal
  cases hr.unique (done_of_le him hm.le hd)

/-- **Lifecycle and safe-to-free.**  Along every run:
* no coroutine exists at the start, and each step takes each coroutine along an edge of the
  lifecycle, done being final; only in the steps that are none of its own does it stay in its
  state;
* a coroutine blocks on an unfinished target, and is woken by the very step that finishes it;
* a coroutine is running exactly while its body executes; control enters the body exactly in the
  steps that resume it, and leaves it exactly when it yields, blocks or returns;
* a resumption switches to the coroutine, which then is `S.running`, running and executing; the
  first one goes through `co_trampoline` and `co_entry`, which calls the function with the argument
  of `co_create`, and the later ones continue the body where it was suspended;
* a done coroutine is not queued, not running, not executing and not awaited, and is never resumed
  and never executes again. -/
theorem lifecycle (r : Execution Fn Arg) :
    (∀ k, (r.st 0).abs.stateOf k = none) ∧
    (∀ i : ℕ, (i : ℕ∞) < r.len → ∀ k,
      Edge k ((r.st i).abs.stateOf k) (r.event i) ((r.st (i + 1)).abs.stateOf k) ∧
      (∀ j, r.event i = .blocked k j →
        ¬ (r.st i).abs.InState j .done ∧ (r.st (i + 1)).abs.WaitsOn k j) ∧
      ∀ j, (r.st i).abs.WaitsOn k j →
        ((r.st (i + 1)).abs.InState k .ready ↔ (r.st (i + 1)).abs.InState j .done)) ∧
    (∀ i : ℕ, (i : ℕ∞) ≤ r.len → ∀ k,
      (r.st i).abs.InState k .running ↔ (r.st i).Executes k) ∧
    (∀ i : ℕ, (i : ℕ∞) < r.len → ∀ k,
      ((∃ call, r.event i = .resumed k call) ↔
        ¬ (r.st i).Executes k ∧ (r.st (i + 1)).Executes k) ∧
      (r.event i = .yielded k ∨ (∃ j, r.event i = .blocked k j) ∨
          (∃ ws, r.event i = .finished k ws) ↔
        (r.st i).Executes k ∧ ¬ (r.st (i + 1)).Executes k)) ∧
    (∀ (p m k : ℕ) (fn : Option Fn) (arg : Option Arg) (call : Option (Option Fn × Option Arg)),
      (p : ℕ∞) < r.len → r.event p = .created k fn arg → (m : ℕ∞) < r.len →
      r.event m = .resumed k call →
      ∃ co, (r.st m).live co = true ∧ (r.st m).idOf co = k ∧
        ((r.st (m + 1)).ctl = .user (some co) ∧ (r.st (m + 1)).running = some co ∧
          ((r.st (m + 1)).mem co).state = .running) ∧
        ((∀ n < m, ∀ call', r.event n ≠ .resumed k call') →
          call = some (fn, arg) ∧ (r.st m).Begins co fn arg) ∧
        ((∃ n < m, ∃ call', r.event n = .resumed k call') →
          call = none ∧ (r.st m).Continues co)) ∧
    ∀ (i : ℕ) (who : Option Addr) (d : Addr), (i : ℕ∞) ≤ r.len → (r.st i).ctl = .user who →
      (r.st i).live d = true → ((r.st i).mem d).state = .done →
      d ∉ (r.st i).runQueue ∧ (r.st i).running ≠ some d ∧ who ≠ some d ∧
      (∀ b, (r.st i).live b = true → ((r.st i).mem b).awaiting ≠ some d) ∧
      (∀ m : ℕ, i ≤ m → (m : ℕ∞) < r.len → ∀ call,
        r.event m ≠ .resumed ((r.st i).idOf d) call) ∧
      ∀ m : ℕ, i ≤ m → (m : ℕ∞) ≤ r.len → ¬ (r.st m).Executes ((r.st i).idOf d) := by
  refine ⟨fun k => ?_, fun i hi k => ⟨(ideal hi).edge (inv hi.le).ideal k, fun j he => ?_,
    fun j hw => ?_⟩, fun i hi k => running_iff_executes hi,
    fun i hi k => ⟨resumed_iff_enters hi, suspends_iff_leaves hi⟩,
    fun p m k fn arg call hp hcr hm hres => entered hp hcr hm hres,
    fun i who d hi hc hl hd => ?_⟩
  · rw [r.start, State.abs_init]; rfl
  · have hstep := ideal_of_event hi he
    exact ⟨hstep.blocked_inv.2.2, hstep.blocked_inv.2.1⟩
  · have hnext := inv (Order.add_one_le_of_lt hi)
    rcases (ideal hi).waitsOn (inv hi.le).ideal hw with ⟨t, ht, hst, ha⟩ | ⟨hr, ws, he⟩
    · -- still waiting: the target is still unfinished
      refine iff_of_false (fun hr => ?_) fun hd => ?_
      · rw [hr.eq ht] at hst; cases hst
      · obtain ⟨u, hu, hn⟩ := hnext.ideal.target k t j ht ha
        exact hn (hd.eq hu)
    · have hstep := ideal_of_event hi he
      exact iff_of_true hr hstep.finished_inv.2.1
  · have h := inv hi
    have hdone := (h.inState_iff hl).mpr hd
    have hne : who ≠ some d := by
      intro e
      have := (h.running_iff hc hl).mpr e
      rw [hd] at this
      cases this
    refine ⟨fun hq => ?_, h.running_eq hc ▸ hne, hne, fun b hb ha => ?_, fun m him hm call => ?_,
      fun m him hm => not_executes_of_done hm (done_of_le him hm hdone)⟩
    · rw [(h.mem_runQueue.mp hq).2] at hd
      cases hd
    · exact h.target_not_done hb ha hd
    · exact not_resumed_of_done him hm hdone call

/-- The first coroutine yields; the second awaits it; both return. -/
def everyEdge : List (Act Unit Unit) :=
  [.create (some ()) none 0 (.ok 10 11), .create (some ()) none 0 (.ok 20 21), .run, .sched,
    .yield, .sched, .await (some 10), .sched, .ret, .sched, .ret, .sched]

/-- A run along every edge: the bodies begin in steps 3 and 5 and continue in steps 7 and 9. -/
def everyEdgeRun : Execution Unit Unit := State.runOf everyEdge (by decide)

theorem lifecycle_everyEdge :
    (everyEdgeRun.event 0 = .created 1 (some ()) none ∧
      everyEdgeRun.event 3 = .resumed 1 (some (some (), none)) ∧
      (everyEdgeRun.st 3).Begins 10 (some ()) none ∧ (everyEdgeRun.st 4).Executes 1) ∧
    (everyEdgeRun.event 4 = .yielded 1 ∧ ¬ (everyEdgeRun.st 5).Executes 1) ∧
    (everyEdgeRun.event 6 = .blocked 2 1 ∧ (everyEdgeRun.st 7).abs.WaitsOn 2 1) ∧
    (everyEdgeRun.event 7 = .resumed 1 none ∧ (everyEdgeRun.st 7).Continues 10 ∧
      (everyEdgeRun.st 8).Executes 1) ∧
    (everyEdgeRun.event 8 = .finished 1 [2] ∧ (everyEdgeRun.st 9).abs.InState 2 .ready) ∧
    ∀ m : ℕ, 10 ≤ m → (m : ℕ∞) ≤ everyEdgeRun.len → ¬ (everyEdgeRun.st m).Executes 1 := by
  have hlt : ∀ n : ℕ, n < everyEdge.length → (n : ℕ∞) < everyEdgeRun.len :=
    fun n hn => Nat.cast_lt.mpr hn
  have h₀ : everyEdgeRun.event 0 = .created 1 (some ()) none := rfl
  have h₃ : everyEdgeRun.event 3 = .resumed 1 (some (some (), none)) := rfl
  have h₄ : everyEdgeRun.event 4 = .yielded 1 := rfl
  have h₆ : everyEdgeRun.event 6 = .blocked 2 1 := rfl
  have h₇ : everyEdgeRun.event 7 = .resumed 1 none := rfl
  have h₈ : everyEdgeRun.event 8 = .finished 1 [2] := rfl
  have hfirst : ∀ n < 3, ∀ call, everyEdgeRun.event n ≠ .resumed 1 call := by
    intro n hn call
    obtain rfl | rfl | rfl : n = 0 ∨ n = 1 ∨ n = 2 := by omega
    all_goals exact fun he => by cases he
  obtain ⟨-, hedge, -, hctl, hcall, hfree⟩ := lifecycle everyEdgeRun
  obtain ⟨co, -, -, ⟨hco, -⟩, hbegins, -⟩ :=
    hcall 0 3 1 _ _ _ (hlt 0 (by decide)) h₀ (hlt 3 (by decide)) h₃
  obtain rfl : 10 = co := Option.some.inj (Ctl.user.inj hco)
  obtain ⟨co, -, -, ⟨hco', -⟩, -, hcontinues⟩ :=
    hcall 0 7 1 _ _ _ (hlt 0 (by decide)) h₀ (hlt 7 (by decide)) h₇
  obtain rfl : 10 = co := Option.some.inj (Ctl.user.inj hco')
  have hdone : (everyEdgeRun.st 9).abs.InState 1 .done := ⟨_, rfl, rfl⟩
  have hwaits : (everyEdgeRun.st 8).abs.WaitsOn 2 1 := ⟨_, rfl, rfl, rfl⟩
  obtain ⟨-, -, -, -, -, hnever⟩ := hfree 10 (some 20) 10 (hlt 10 (by decide)).le rfl rfl rfl
  refine ⟨⟨h₀, h₃, (hbegins hfirst).2, ?_⟩, ⟨h₄, ?_⟩, ⟨h₆, ?_⟩,
    ⟨h₇, (hcontinues ⟨3, by decide, _, h₃⟩).2, ?_⟩, ⟨h₈, ?_⟩, hnever⟩
  · exact ((hctl 3 (hlt 3 (by decide)) 1).1.mp ⟨_, h₃⟩).2
  · exact ((hctl 4 (hlt 4 (by decide)) 1).2.mp (.inl h₄)).2
  · exact ((hedge 6 (hlt 6 (by decide)) 2).2.1 1 h₆).2
  · exact ((hctl 7 (hlt 7 (by decide)) 1).1.mp ⟨_, h₇⟩).2
  · exact ((hedge 8 (hlt 8 (by decide)) 2).2.2 1 hwaits).mpr hdone

end Execution

end CCoroutine
