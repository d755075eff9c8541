import CCoroutine.Refinement.Control
import CCoroutine.Scheduler.Execution

/-!
# Safety — Nesting

`co_run` called from a coroutine body.  There is one `S.running` and one `S.main_ctx`, and the
inner `co_run` overwrites both as soon as it resumes a coroutine: when it returns, `S.running` is
`NULL` and `S.main_ctx` still holds the inner loop, whose frame is gone.

The executing context and the two globals agree throughout a run exactly when every `co_run` that
a body calls and that returns was called on an empty run-queue (`contextsAgree_iff`).
-/

namespace CCoroutine
open Support (Run Reachable exec)

/-- A run of a program that may call `co_run` from a body. -/
abbrev NestedExecution (Fn Arg : Type) := Run Step (State.init : State Fn Arg)

namespace NestedExecution

variable {Fn Arg : Type} {r : NestedExecution Fn Arg} {i j n : ℕ} {c : Addr}

/-- Step `n` is a turn of the loop on `o`, and resumes the coroutine `c`. -/
def Resumes (r : NestedExecution Fn Arg) (n : ℕ) (o : Option Addr) (c : Addr) : Prop :=
  r.act n = .sched ∧ (r.st n).ctl = .loop o ∧ ∃ rest, (r.st n).runQueue = c :: rest

/-- In step `n` the code on the stack `who` calls `co_run`. -/
def Calls (r : NestedExecution Fn Arg) (n : ℕ) (who : Option Addr) : Prop :=
  r.act n = .run ∧ (r.st n).ctl = .user who

/-- The `co_run` that the code on `who` calls in step `i` returns in step `j`. -/
structure RunReturns (r : NestedExecution Fn Arg) (who : Option Addr) (i j : ℕ) : Prop where
  lt : i < j
  bound : (j : ℕ∞) < r.len
  call : r.Calls i who
  turn : r.act j = .sched
  loop : (r.st j).ctl = .loop who
  empty : (r.st j).runQueue = []
  last : ∀ m, i < m → m < j → ¬ r.Calls m who

/-- The executing context and the globals agree along the run. -/
structure ContextsAgree (r : NestedExecution Fn Arg) : Prop where
  /-- While a body executes, `S.running` is its coroutine, for `co_id` and `co_yield` too. -/
  body : ∀ (i : ℕ) (c : Addr), (i : ℕ∞) ≤ r.len → (r.st i).ctl = .user (some c) →
    (r.st i).running = some c ∧ (r.st i).coId = ((r.st i).mem c).id ∧
      (r.st i).step .yield ≠ .error .yieldOutside
  main : ∀ i : ℕ, (i : ℕ∞) ≤ r.len → (r.st i).ctl = .user none → (r.st i).running = none
  /-- `co_run` restores `S.running`, and the continuation of the enclosing `co_run`. -/
  returns : ∀ who i j, r.RunReturns who i j → (r.st (j + 1)).running = (r.st i).running ∧
    ∀ o rest, (r.st i).frames = o :: rest → (r.st (j + 1)).mainCtx = .inResume o
  /-- While a body executes, `S.main_ctx` is the loop that last resumed it. -/
  resumer : ∀ (m j : ℕ) (o : Option Addr) (c : Addr), m < j → (j : ℕ∞) ≤ r.len →
    r.Resumes m o c →
    (∀ n o', m < n → n < j → ¬ r.Resumes n o' c) → (r.st j).ctl = .user (some c) →
    (r.st j).mainCtx = .inResume o

theorem inv (hn : (n : ℕ∞) ≤ r.len) : (r.st n).Inv := State.inv_of_reachable (r.reachable hn)

theorem control (hn : (n : ℕ∞) < r.len) : (r.st n).ControlStep (r.act n) (r.st (n + 1)) :=
  (inv hn.le).controlStep (r.next n hn)

/-! ### Runs without a stranding return -/

/-- Before step `n` no `co_run` called by a body has returned after resuming a coroutine. -/
def Sound (r : NestedExecution Fn Arg) (n : ℕ) : Prop :=
  ∀ j < n, r.act j = .sched → ¬ (r.st j).StrandingReturn

theorem Sound.mono (h : r.Sound n) (hj : j ≤ n) : r.Sound j :=
  fun i hi => h i (hi.trans_le hj)

theorem Sound.attached (h : r.Sound n) (hn : (n : ℕ∞) ≤ r.len) : (r.st n).Attached := by
  induction n with
  | zero => rw [r.start]; exact fun c hc => by cases hc
  | succ n ih =>
      have hlt := Run.lt_of_succ_le hn
      exact (inv hlt.le).attached_step (r.next n hlt) (ih (h.mono n.le_succ) hlt.le)
        (h n n.lt_succ_self)

/-- To show that no step strands a body, assume it of the steps before. -/
theorem sound_of_step (h : ∀ n : ℕ, (n : ℕ∞) < r.len → r.Sound n → r.act n = .sched →
    ¬ (r.st n).StrandingReturn) (hn : (n : ℕ∞) ≤ r.len) : r.Sound n := by
  induction n with
  | zero => exact fun j hj => absurd hj (Nat.not_lt_zero j)
  | succ n ih =>
      have hlt := Run.lt_of_succ_le hn
      intro j hj
      rcases Nat.lt_succ_iff_lt_or_eq.mp hj with hj | rfl
      · exact ih hlt.le j hj
      · exact h j hlt (ih hlt.le)

/-! ### The last call of a `co_run` in progress -/

/-- A body gets a `co_run` frame by calling `co_run`. -/
theorem framed_succ (hn : (n : ℕ∞) < r.len)
    (hc : some c ∈ (r.st (n + 1)).frames) : some c ∈ (r.st n).frames ∨ r.Calls n (some c) := by
  have hstep := control hn
  generalize ha : r.act n = a at hstep
  generalize r.st (n + 1) = s' at hstep hc
  cases hstep with
  | stays _ _ _ _ _ _ hf _ => exact .inl (hf ▸ hc)
  | suspends _ _ _ _ _ _ hf _ => exact .inl (hf ▸ hc)
  | resumes _ _ _ _ _ hf => exact .inl (hf ▸ hc)
  | returns _ _ hf => exact .inl (hf ▸ List.mem_cons_of_mem _ hc)
  | calls hctl =>
      rcases List.mem_cons.mp hc with e | hc
      · exact .inr ⟨ha, e ▸ hctl⟩
      · exact .inl hc

/-- The last call of a `co_run` that is in progress at `j` and was not at `n`. -/
theorem exists_call (hj : (j : ℕ∞) ≤ r.len) (hnj : n ≤ j)
    (hn : some c ∉ (r.st n).frames) (hc : some c ∈ (r.st j).frames) :
    ∃ i, n ≤ i ∧ i < j ∧ r.Calls i (some c) ∧ ∀ m, i < m → m < j → ¬ r.Calls m (some c) := by
  induction hnj with
  | refl => exact absurd hc hn
  | @step j hnj ih =>
      have hlt := Run.lt_of_succ_le hj
      by_cases hcall : r.Calls j (some c)
      · exact ⟨j, hnj, j.lt_succ_self, hcall, fun m hm hm' => by omega⟩
      · have hc' := (framed_succ hlt hc).resolve_right hcall
        obtain ⟨i, hni, hij, hi, hlast⟩ := ih hlt.le hc'
        refine ⟨i, hni, hij.trans j.lt_succ_self, hi, fun m hm hm' => ?_⟩
        rcases Nat.lt_succ_iff_lt_or_eq.mp hm' with hm' | rfl
        · exact hlast m hm hm'
        · exact hcall

/-! ### A body that is not executing -/

/-- The body of `c` does not execute, and will not when the innermost loop returns. -/
def Away (s : State Fn Arg) (c : Addr) : Prop :=
  s.ctl ≠ .user (some c) ∧ (s.ctl = .loop (some c) → s.running = none)

/-- Without a resumption of `c` its body does not come back, as long as no body is stranded. -/
theorem Sound.away_succ (h : r.Sound (n + 1)) (hn : (n : ℕ∞) < r.len)
    (hres : ∀ o, ¬ r.Resumes n o c) (hc : Away (r.st n) c) : Away (r.st (n + 1)) c := by
  have hstep := control hn
  have hnot := h n n.lt_succ_self
  unfold Away
  generalize ha : r.act n = a at hstep
  generalize r.st (n + 1) = s' at hstep
  cases hstep with
  | stays hctl _ _ hctl' _ _ _ _ =>
      rw [hctl']
      exact ⟨hctl ▸ hc.1, fun e => by cases e⟩
  | suspends _ _ _ _ hctl' hr _ _ =>
      rw [hctl']
      exact ⟨fun e => (by cases e), fun _ => hr⟩
  | calls hctl =>
      refine ⟨fun e => (by cases e), fun e => ?_⟩
      cases e
      exact absurd hctl hc.1
  | returns hctl hq _ =>
      refine ⟨fun e => ?_, fun e => by cases e⟩
      cases e
      exact hnot ha ⟨hq, hc.2 hctl, c, hctl⟩
  | @resumes _ who co rest hctl hq hctl' _ _ _ =>
      rw [hctl']
      refine ⟨fun e => ?_, fun e => by cases e⟩
      cases e
      exact hres who ⟨ha, hctl, rest, hq⟩

/-- A body inside a `co_run` of its own is not resumed. -/
theorem not_resumes_of_framed (hn : (n : ℕ∞) ≤ r.len)
    (hc : some c ∈ (r.st n).frames) (o : Option Addr) : ¬ r.Resumes n o c := by
  rintro ⟨-, -, rest, hq⟩
  have hr := ((inv hn).mem_runQueue.mp (hq ▸ List.mem_cons_self : c ∈ (r.st n).runQueue)).2
  rw [(inv hn).running_of_framed hc] at hr
  cases hr

/-- A body that is away inside a `co_run` of its own stays there. -/
theorem Sound.framed_away (h : r.Sound j) (hj : (j : ℕ∞) ≤ r.len) (hnj : n ≤ j)
    (hf : some c ∈ (r.st n).frames) (hc : Away (r.st n) c) :
    some c ∈ (r.st j).frames ∧ Away (r.st j) c := by
  induction hnj with
  | refl => exact ⟨hf, hc⟩
  | @step j hnj ih =>
      have hlt := Run.lt_of_succ_le hj
      obtain ⟨hf, hc⟩ := ih (h.mono j.le_succ) hlt.le
      have hres := not_resumes_of_framed hlt.le hf
      refine ⟨?_, h.away_succ hlt hres hc⟩
      have hstep := control hlt
      have hnot := h j j.lt_succ_self
      generalize ha : r.act j = a at hstep
      generalize r.st (j + 1) = s' at hstep
      cases hstep with
      | stays _ _ _ _ _ _ hf' _ => exact hf' ▸ hf
      | suspends _ _ _ _ _ _ hf' _ => exact hf' ▸ hf
      | resumes _ _ _ _ _ hf' => exact hf' ▸ hf
      | calls _ => exact List.mem_cons_of_mem _ hf
      | returns hctl hq hf' =>
          rw [hf'] at hf
          rcases List.mem_cons.mp hf with e | hf
          · subst e
            exact absurd ⟨hq, hc.2 hctl, c, hctl⟩ (hnot ha)
          · exact hf

/-! ### Calls on an empty and on a non-empty run-queue -/

/-- The state after the call of `co_run`. -/
theorem call_succ (hi : (i : ℕ∞) < r.len) {who : Option Addr}
    (hc : r.Calls i who) : r.st (i + 1) = (r.st i).coRun who := by
  have hs := (r.next i hi).2
  rw [hc.1] at hs
  rw [State.step_user hc.2, State.call_run] at hs
  exact (Except.ok.inj hs).symm

/-- A scheduler loop does nothing but take its next turn. -/
theorem act_of_loop {who : Option Addr} (hn : (n : ℕ∞) < r.len) (hc : (r.st n).ctl = .loop who) :
    r.act n = .sched := by
  have hl := (r.next n hn).1
  cases ha : r.act n with
  | sched => rfl
  | create | free | await | state =>
      rw [ha] at hl
      obtain ⟨⟨who', hc'⟩, -⟩ := hl
      rw [hc] at hc'
      cases hc'
  | yield | ret | run | id =>
      rw [ha] at hl
      obtain ⟨who', hc'⟩ := hl
      rw [hc] at hc'
      cases hc'

/-- The state after a call of `co_run` by a body: its frame is the innermost. -/
theorem call_framed (hi : (i : ℕ∞) < r.len) (hc : r.Calls i (some c)) :
    (r.st (i + 1)).frames = some c :: (r.st i).frames ∧ some c ∉ (r.st i).frames ∧
      (r.st (i + 1)).ctl = .loop (some c) ∧ (r.st (i + 1)).runQueue = (r.st i).runQueue ∧
      (r.st (i + 1)).running = (r.st i).running ∧
      (r.st (i + 1)).mainCtx = (r.st i).mainCtx := by
  rw [call_succ hi hc]
  exact ⟨rfl, (inv hi.le).not_framed hc.2, rfl, rfl, rfl, rfl⟩

/-- Called on an empty run-queue, the `co_run` of a body returns at once. -/
theorem returns_at_once (hr : r.RunReturns (some c) i j) (hq : (r.st i).runQueue = []) :
    j = i + 1 := by
  by_contra hne
  have hij : i + 1 < j := lt_of_le_of_ne hr.lt (Ne.symm hne)
  have hj : ((i + 1 : ℕ) : ℕ∞) < r.len := lt_trans (by exact_mod_cast hij) hr.bound
  obtain ⟨hf, hnf, hctl, hq', -, -⟩ := call_framed (Run.lt_of_succ_le hj.le) hr.call
  -- the first turn finds nothing and returns, so the frame is gone
  have hgone : some c ∉ (r.st (i + 1 + 1)).frames := by
    have hstep := control hj
    rw [act_of_loop hj hctl] at hstep
    obtain ⟨rest, hf', hs⟩ := hstep.returned hctl (hq'.trans hq)
    rw [hf, List.cons.injEq] at hf'
    rw [hs]
    exact hf'.2 ▸ hnf
  obtain ⟨rest, hfj⟩ := (inv hr.bound.le).control_loop hr.loop
  obtain ⟨m, hm, hmj, hcall, -⟩ :=
    exists_call hr.bound.le hij hgone (by rw [hfj]; exact List.mem_cons_self)
  exact hr.last m (by omega) hmj hcall

/-- Called on a non-empty run-queue it resumes a coroutine, and `S.running` is lost. -/
theorem Sound.running_lost (h : r.Sound j) (hr : r.RunReturns (some c) i j)
    (hq : (r.st i).runQueue ≠ []) : (r.st j).running = none := by
  have hi : (i : ℕ∞) < r.len := lt_trans (by exact_mod_cast hr.lt) hr.bound
  obtain ⟨hf, -, hctl, hq', -, -⟩ := call_framed hi hr.call
  have hij : i + 1 < j := by
    refine lt_of_le_of_ne hr.lt fun (e : i + 1 = j) => hq ?_
    rw [← hq', e, hr.empty]
  have hj : ((i + 1 : ℕ) : ℕ∞) < r.len := lt_trans (by exact_mod_cast hij) hr.bound
  have hmem := State.mem_frames hf
  have hact := act_of_loop hj hctl
  have haway : some c ∈ (r.st (i + 1 + 1)).frames ∧ Away (r.st (i + 1 + 1)) c := by
    have hstep := control hj
    rw [hact] at hstep
    obtain ⟨co, rest, hcons⟩ := List.exists_cons_of_ne_nil (hq'.symm ▸ hq)
    obtain ⟨hctl', -, hf'⟩ := hstep.resumed hctl hcons
    unfold Away
    rw [hf', hctl']
    refine ⟨hmem, fun e => ?_, fun e => by cases e⟩
    cases e
    exact not_resumes_of_framed hj.le hmem _ ⟨hact, hctl, rest, hcons⟩
  exact (h.framed_away hr.bound.le hij haway.1 haway.2).2.2 hr.loop

/-- In a run without a stranding return, a `co_run` that a body calls and that returns was called
on an empty run-queue. -/
theorem Sound.empty_of_returns (h : r.Sound (j + 1)) (hr : r.RunReturns (some c) i j) :
    (r.st i).runQueue = [] := by
  by_contra hq
  have hlost := (h.mono j.le_succ).running_lost hr hq
  exact h j j.lt_succ_self hr.turn ⟨hr.empty, hlost, c, hr.loop⟩

/-! ### The executing context -/

/-- The state after `co_run` has returned. -/
theorem return_succ {who : Option Addr} (hr : r.RunReturns who i j) :
    (r.st (j + 1)).ctl = .user who ∧ (r.st (j + 1)).running = (r.st j).running ∧
      (r.st (j + 1)).mainCtx = (r.st j).mainCtx := by
  have hstep := control hr.bound
  rw [hr.turn] at hstep
  obtain ⟨rest, -, hs⟩ := hstep.returned hr.loop hr.empty
  rw [hs]
  exact ⟨rfl, rfl, rfl⟩

theorem Sound.returns (h : r.Sound (j + 1)) {who : Option Addr} (hr : r.RunReturns who i j) :
    (r.st (j + 1)).running = (r.st i).running ∧
      ∀ o rest, (r.st i).frames = o :: rest → (r.st (j + 1)).mainCtx = .inResume o := by
  have hi : (i : ℕ∞) < r.len := lt_trans (by exact_mod_cast hr.lt) hr.bound
  have hinv := inv hi.le
  obtain ⟨hctl, hrun, hmain⟩ := return_succ hr
  cases who with
  | none =>
      have hrun' := (inv (Order.add_one_le_of_lt hr.bound)).control
      have hrun := hinv.control
      rw [State.ControlOk, hctl] at hrun'
      rw [State.ControlOk, hr.call.2] at hrun
      refine ⟨hrun'.trans hrun.symm, fun o rest hf => ?_⟩
      -- main has no enclosing `co_run`
      have hnil := hinv.ideal.ctl
      rw [State.abs_ctl_user hr.call.2, State.abs_frames hf] at hnil
      cases hnil
  | some c =>
      obtain rfl := returns_at_once hr (h.empty_of_returns hr)
      obtain ⟨-, -, -, -, hrun', hmain'⟩ := call_framed hi hr.call
      have hat := (h.mono (hr.lt.le.trans (Nat.le_succ _))).attached hi.le
      obtain ⟨-, o', rest', hf', hm⟩ := hinv.holds hat hr.call.2
      refine ⟨hrun.trans hrun', fun o rest hf => ?_⟩
      rw [hf, List.cons.injEq] at hf'
      rw [hmain, hmain', hm, hf'.1]

/-- Between a resumption of `c` and the next, the body of `c` executes under the loop that resumed
it, or is inside a `co_run` that has resumed nothing, or is away. -/
def Under (s : State Fn Arg) (o : Option Addr) (c : Addr) : Prop :=
  (s.ctl = .user (some c) ∨ s.ctl = .loop (some c) ∧ s.running ≠ none) ∧
    s.mainCtx = .inResume o ∨ Away s c

theorem Sound.under_succ (h : r.Sound (n + 1)) (hn : (n : ℕ∞) < r.len) {o : Option Addr}
    (hres : ∀ o, ¬ r.Resumes n o c) (hc : Under (r.st n) o c) : Under (r.st (n + 1)) o c := by
  rcases hc with ⟨hctl, hm⟩ | haway
  · have hat := (h.mono n.le_succ).attached hn.le
    have hstep := control hn
    unfold Under Away
    generalize ha : r.act n = a at hstep
    generalize r.st (n + 1) = s' at hstep
    cases hstep with
    | stays hc _ _ hc' _ hm' _ _ =>
        refine .inl ⟨.inl ?_, hm'.trans hm⟩
        rcases hctl with hctl | ⟨hctl, -⟩
        · rw [hc', ← hc, hctl]
        · rw [hc] at hctl; cases hctl
    | suspends _ _ _ _ hc' hr' _ _ =>
        exact .inr ⟨fun e => (by rw [hc'] at e; cases e), fun _ => hr'⟩
    | calls hc =>
        rcases hctl with hctl | ⟨hctl, -⟩
        · obtain rfl := Ctl.user.inj (hc.symm.trans hctl)
          refine .inl ⟨.inr ⟨rfl, ?_⟩, hm⟩
          show (r.st n).running ≠ none
          rw [hat c hctl]
          exact Option.some_ne_none c
        · rw [hc] at hctl; cases hctl
    | returns hc _ _ =>
        rcases hctl with hctl | ⟨hctl, -⟩
        · rw [hc] at hctl; cases hctl
        · obtain rfl := Ctl.loop.inj (hc.symm.trans hctl)
          exact .inl ⟨.inl rfl, hm⟩
    | resumes hc hq hc' _ _ _ =>
        refine .inr ⟨fun e => ?_, fun e => by rw [hc'] at e; cases e⟩
        rw [hc'] at e
        cases e
        exact hres _ ⟨ha, hc, _, hq⟩
  · exact .inr (h.away_succ hn hres haway)

theorem Sound.under (h : r.Sound j) (hj : (j : ℕ∞) ≤ r.len) (hnj : n ≤ j) {o : Option Addr}
    (hres : ∀ m o', n ≤ m → m < j → ¬ r.Resumes m o' c) (hc : Under (r.st n) o c) :
    Under (r.st j) o c := by
  induction hnj with
  | refl => exact hc
  | @step j hnj ih =>
      have hlt := Run.lt_of_succ_le hj
      exact h.under_succ hlt (fun o' => hres j o' hnj j.lt_succ_self)
        (ih (h.mono j.le_succ) hlt.le fun m o' hm hm' => hres m o' hm (hm'.trans j.lt_succ_self))

theorem Sound.resumer (h : r.Sound j) (hj : (j : ℕ∞) ≤ r.len) (hnj : n < j) {o : Option Addr}
    (hn : r.Resumes n o c) (hres : ∀ m o', n < m → m < j → ¬ r.Resumes m o' c)
    (hc : (r.st j).ctl = .user (some c)) : (r.st j).mainCtx = .inResume o := by
  have hlt : (n : ℕ∞) < r.len := lt_of_lt_of_le (by exact_mod_cast hnj) hj
  have hstart : Under (r.st (n + 1)) o c := by
    obtain ⟨ha, hctl, rest, hq⟩ := hn
    have hstep := control hlt
    rw [ha] at hstep
    obtain ⟨hctl', hm, -⟩ := hstep.resumed hctl hq
    exact .inl ⟨.inl hctl', hm⟩
  rcases h.under hj hnj (fun m o' hm => hres m o' hm) hstart with ⟨-, hm⟩ | haway
  · exact hm
  · exact absurd hc haway.1

theorem contextsAgree_of_sound (h : ∀ n : ℕ, (n : ℕ∞) ≤ r.len → r.Sound n) :
    r.ContextsAgree where
  body i c hi hc := by
    have hat := (h i hi).attached hi
    refine ⟨hat c hc, by rw [(inv hi).coId_eq hat hc]; rfl, ?_⟩
    obtain ⟨s', hs, -⟩ := (inv hi).step_yield hat hc
    simp [State.step_user hc, hs]
  main i hi hc := by simpa [State.ControlOk, hc] using (inv hi).control
  returns who i j hr := (h (j + 1) (Order.add_one_le_of_lt hr.bound)).returns hr
  resumer m j o c hmj hj hm hres hc := (h j hj).resumer hj hmj hm hres hc

/-- A stranding return leaves a body executing with `S.running` at `NULL`. -/
theorem sound_of_contextsAgree (h : r.ContextsAgree) (hn : (n : ℕ∞) ≤ r.len) : r.Sound n := by
  refine sound_of_step (fun n hn hs ha hstr => ?_) hn
  obtain ⟨hq, hrun, c, hctl⟩ := hstr
  have hstep := control hn
  rw [ha] at hstep
  obtain ⟨rest, -, hs'⟩ := hstep.returned hctl hq
  have hbody := (h.body (n + 1) c (Order.add_one_le_of_lt hn) (by rw [hs'])).1
  rw [hs'] at hbody
  rw [show (r.st n).running = some c from hbody] at hrun
  cases hrun

theorem sound_of_empty (h : ∀ c i j, r.RunReturns (some c) i j → (r.st i).runQueue = [])
    (hn : (n : ℕ∞) ≤ r.len) : r.Sound n := by
  refine sound_of_step (fun n hn hs ha hstr => ?_) hn
  obtain ⟨hq, hrun, c, hctl⟩ := hstr
  obtain ⟨rest, hf⟩ := (inv hn.le).control_loop hctl
  have hstart : some c ∉ (r.st 0).frames := by rw [r.start]; exact List.not_mem_nil
  obtain ⟨i, -, hin, hcall, hlast⟩ :=
    exists_call hn.le (Nat.zero_le n) hstart (State.mem_frames hf)
  have hr : r.RunReturns (some c) i n := ⟨hin, hn, hcall, ha, hctl, hq, hlast⟩
  -- the call found nothing to resume, so `S.running` is still the caller
  obtain rfl := returns_at_once hr (h c i n hr)
  have hi := Run.lt_of_succ_le hn.le
  have hat := (hs.mono i.le_succ).attached hi.le
  rw [(call_framed hi hcall).2.2.2.2.1, hat c hcall.2] at hrun
  cases hrun

/-- **The executing context and the globals agree** along a run exactly when each `co_run` that a
body calls and that returns was called on an empty run-queue. -/
theorem contextsAgree_iff (r : NestedExecution Fn Arg) :
    r.ContextsAgree ↔ ∀ c i j, r.RunReturns (some c) i j → (r.st i).runQueue = [] := by
  constructor
  · intro h c i j hr
    exact (sound_of_contextsAgree h (Order.add_one_le_of_lt hr.bound)).empty_of_returns hr
  · exact fun h => contextsAgree_of_sound fun n hn => sound_of_empty h hn

/-- A body creates a second coroutine and calls `co_run`, which runs it to its end and returns. -/
def nestedRun : List (Act Unit Unit) :=
  [.create (some ()) none 0 (.ok 10 11), .run, .sched, .create (some ()) none 0 (.ok 20 21), .run,
    .sched, .ret, .sched]

/-- Back in the first body, `S.running` is `NULL`: `co_id` is `0` and `co_yield` asserts. -/
theorem stranded_nestedRun : ∃ s : State Unit Unit, Reachable Step State.init s ∧
    s.ctl = .user (some 10) ∧ s.running = none ∧ s.coId = 0 ∧ (s.mem 10).id = 1 ∧
    s.step .yield = .error .yieldOutside := by
  have hreach : Reachable Step State.init
      ((exec State.next (State.init : State Unit Unit) nestedRun).getD State.init) :=
    Support.reachable_of_exec (fun _ _ _ => State.step_of_next) (by decide)
  exact ⟨_, hreach, rfl, rfl, rfl, rfl, rfl⟩

end NestedExecution

end CCoroutine
