import CCoroutine.Refinement.Control

/-!
# Refinement — Runs

A program that calls `co_run` from main only has no body inside a `co_run` of its own (`Flat`), so
none of its steps is a `StrandingReturn`: `InvM` holds in all of its states
(`invM_of_reachable`), and each of its steps is a step of the ideal scheduler (`InvM.refines`).
-/

namespace CCoroutine
open CCoroutine.Ideal (Task Sys Ev)
open Support (Reachable Run)

/-! ### No nested `co_run` -/

namespace Ideal

variable {Fn Arg : Type} {A B : Sys Fn Arg} {e : Ev Fn Arg}

/-- No task is inside a `co_run` of its own. -/
def Sys.Flat (A : Sys Fn Arg) : Prop := ∀ k, some k ∉ A.frames

theorem Step.flat (h : A.Flat) (hs : Step A e B) (he : ∀ k, e ≠ .runCalled (some k)) :
    B.Flat := by
  intro j hj
  cases hs with
  | create | createFailed | free | yield | await | block | finish | resume | sawState | sawId =>
      exact h j hj
  | @run who hc =>
      rcases List.mem_cons.mp hj with e | hj
      · exact he j (e ▸ rfl)
      · exact h j hj
  | runReturn hc hq hf => exact h j (hf ▸ List.mem_cons_of_mem _ hj)

/-- Without nesting, control enters a body by resuming it, and in no other way. -/
theorem Step.resumed_iff {k : ℕ} (h : A.Flat) (hs : Step A e B) :
    (∃ call, e = .resumed k call) ↔ A.ctl ≠ .user (some k) ∧ B.ctl = .user (some k) := by
  constructor
  · rintro ⟨call, rfl⟩
    cases hs with
    | resume hc hq ht => exact ⟨by rw [hc]; nofun, rfl⟩
  · rintro ⟨hA, hB⟩
    cases hs with
    | resume hc hq ht => cases hB; exact ⟨_, rfl⟩
    | create | createFailed | free | await | sawState | sawId => exact absurd hB hA
    | yield | block | finish | run => cases hB
    | runReturn hc hq hf =>
        cases hB
        exact absurd (hf ▸ List.mem_cons_self) (h k)

/-- Without nesting, control leaves a body when it yields, blocks or returns. -/
theorem Step.suspends_iff {k : ℕ} (hs : Step A e B) (he : ∀ k, e ≠ .runCalled (some k)) :
    (e = .yielded k ∨ (∃ j, e = .blocked k j) ∨ ∃ ws, e = .finished k ws) ↔
      A.ctl = .user (some k) ∧ B.ctl ≠ .user (some k) := by
  constructor
  · rintro (rfl | ⟨j, rfl⟩ | ⟨ws, rfl⟩)
    · cases hs with
      | yield hc ht hf => exact ⟨hc, nofun⟩
    · cases hs with
      | block hc ht hj hn hf => exact ⟨hc, nofun⟩
    · cases hs with
      | finish hc ht hf hn hw => exact ⟨hc, nofun⟩
  · rintro ⟨hA, hB⟩
    cases hs with
    | yield hc => exact .inl (by rw [Option.some.inj (Ctl.user.inj (hc.symm.trans hA))])
    | block hc =>
        exact .inr (.inl ⟨_, by rw [Option.some.inj (Ctl.user.inj (hc.symm.trans hA))]⟩)
    | finish hc =>
        exact .inr (.inr ⟨_, by rw [Option.some.inj (Ctl.user.inj (hc.symm.trans hA))]⟩)
    | create | createFailed | free | await | sawState | sawId => exact absurd hA hB
    | resume hc | runReturn hc => cases hc.symm.trans hA
    | run hc =>
        obtain rfl := Ctl.user.inj (hc.symm.trans hA)
        exact absurd rfl (he k)

/-- Without nesting, the running task is the one being executed. -/
theorem Inv.inState_running_iff (h : Inv A) (hf : A.Flat) (k : ℕ) :
    A.InState k .running ↔ A.ctl = .user (some k) :=
  (h.running k).trans (or_iff_left (hf k))

end Ideal

namespace State

variable {Fn Arg : Type} {s s' : State Fn Arg} {a : Act Fn Arg}

/-! ### Programs that call `co_run` from main only -/

/-- The invariant of a program that calls `co_run` from main only. -/
structure InvM (s : State Fn Arg) : Prop extends s.Inv where
  flat : s.abs.Flat
  attached : s.Attached

/-- When main executes, no `co_run` is in progress, whoever has called it before. -/
theorem Inv.invM_of_main (h : s.Inv) (hc : s.ctl = .user none) : s.InvM := by
  have hctl := h.ideal.ctl
  rw [abs_ctl_user hc] at hctl
  refine ⟨h, fun k hk => ?_, fun c hbody => ?_⟩
  · rw [show s.abs.frames = [] from hctl] at hk
    cases hk
  · cases hc.symm.trans hbody

theorem invM_init : (init : State Fn Arg).InvM :=
  ⟨inv_init, by rw [abs_init]; exact fun k => List.not_mem_nil, fun c hc => by cases hc⟩

namespace InvM

theorem not_framed (h : s.InvM) (c : Addr) : some c ∉ s.frames := fun hc =>
  h.flat (s.idOf c) (List.mem_map.mpr ⟨some c, hc, rfl⟩)

/-- The scheduler loop is main's. -/
theorem loop_main (h : s.InvM) {who : Option Addr} (hc : s.ctl = .loop who) : who = none := by
  obtain ⟨rest, hf⟩ := h.control_loop hc
  cases who with
  | none => rfl
  | some c => exact absurd (hf ▸ List.mem_cons_self) (h.not_framed c)

theorem not_stranding (h : s.InvM) : ¬ s.StrandingReturn := by
  rintro ⟨-, -, c, hc⟩
  cases h.loop_main hc

theorem event_ne_runCalled (hm : s.FromMain a) (k : ℕ) : s.event a ≠ .runCalled (some k) := by
  intro he
  obtain rfl : a = .run := causes_of_event he
  have hc : s.ctl = .user none := hm
  simp [event, hc] at he

/-- **A step of such a program**, at the level of the ideal scheduler. -/
theorem refines (h : s.InvM) (hs : StepM s a s') :
    Ideal.Step s.abs (s.event a) s'.abs ∧ s'.InvM := by
  obtain ⟨hstep, hinv⟩ := h.toInv.refines hs.1 fun _ => h.attached
  exact ⟨hstep, hinv, hstep.flat h.flat (event_ne_runCalled hs.2),
    h.toInv.attached_step hs.1 h.attached fun _ => h.not_stranding⟩

theorem step (h : s.InvM) (hs : StepM s a s') : s'.InvM := (h.refines hs).2

theorem exists_step (h : s.InvM) (hl : s.Legal a) (hm : s.FromMain a) (hfull : ¬ s.TableFull a) :
    ∃ s', StepM s a s' := by
  obtain ⟨s', he, -⟩ := h.toInv.exec hl hfull fun _ => h.attached
  exact ⟨s', ⟨hl, he⟩, hm⟩

/-- **Nothing legal faults**, a full table apart. -/
theorem progress (h : s.InvM) (hl : s.Legal a) :
    (∃ s', s.step a = .ok s') ∨ s.step a = .error .tooManyCoroutines := by
  by_cases hfull : s.TableFull a
  · exact .inr (step_tableFull hl hfull)
  · obtain ⟨s', he, -⟩ := h.toInv.exec hl hfull fun _ => h.attached
    exact .inl ⟨s', he⟩

end InvM

theorem invM_of_reachable (h : Reachable StepM (init : State Fn Arg) s) : s.InvM :=
  h.invariant invM_init fun _ _ _ hs hst => hs.step hst

/-- The body of the coroutine with id `k` is being executed. -/
def Executes (s : State Fn Arg) (k : ℕ) : Prop := ∃ c, s.ctl = .user (some c) ∧ s.idOf c = k

theorem executes_iff {k : ℕ} : s.Executes k ↔ s.abs.ctl = .user (some k) := by
  constructor
  · rintro ⟨c, hc, rfl⟩
    exact abs_ctl_user hc
  · intro h
    cases hc : s.ctl with
    | loop who => rw [abs_ctl_loop hc] at h; cases h
    | user who =>
        rw [abs_ctl_user hc] at h
        obtain ⟨c, rfl, hid⟩ := Option.map_eq_some_iff.mp (Ctl.user.inj h)
        exact ⟨c, hc, hid⟩

end State

/-! ### Runs -/

/-- A run, finite or infinite, of a program that calls `co_run` from main only. -/
abbrev Execution (Fn Arg : Type) := Run StepM (State.init : State Fn Arg)

namespace Execution

variable {Fn Arg : Type} (r : Execution Fn Arg)

/-- What happens in step `i`. -/
def event (i : ℕ) : Ev Fn Arg := (r.st i).event (r.act i)

variable {r} {i : ℕ}

theorem inv (hi : (i : ℕ∞) ≤ r.len) : (r.st i).InvM := State.invM_of_reachable (r.reachable hi)

/-- Each step of the run is a step of the ideal scheduler. -/
theorem ideal (hi : (i : ℕ∞) < r.len) :
    Ideal.Step (r.st i).abs (r.event i) (r.st (i + 1)).abs :=
  ((inv hi.le).refines (r.next i hi)).1

theorem ideal_of_event {e : Ev Fn Arg} (hi : (i : ℕ∞) < r.len) (he : r.event i = e) :
    Ideal.Step (r.st i).abs e (r.st (i + 1)).abs :=
  he ▸ ideal hi

/-- A coroutine is `CO_RUNNING` while its body executes. -/
theorem running_iff_executes {k : ℕ} (hi : (i : ℕ∞) ≤ r.len) :
    (r.st i).abs.InState k .running ↔ (r.st i).Executes k :=
  ((inv hi).ideal.inState_running_iff (inv hi).flat k).trans State.executes_iff.symm

/-- **A resumption executes**: control enters a body in the steps that resume it. -/
theorem resumed_iff_enters {k : ℕ} (hi : (i : ℕ∞) < r.len) :
    (∃ call, r.event i = .resumed k call) ↔
      ¬ (r.st i).Executes k ∧ (r.st (i + 1)).Executes k := by
  rw [State.executes_iff, State.executes_iff]
  exact (ideal hi).resumed_iff (inv hi.le).flat

/-- **A suspension gives control back**: control leaves a body when it yields, blocks or returns. -/
theorem suspends_iff_leaves {k : ℕ} (hi : (i : ℕ∞) < r.len) :
    (r.event i = .yielded k ∨ (∃ j, r.event i = .blocked k j) ∨
        ∃ ws, r.event i = .finished k ws) ↔
      (r.st i).Executes k ∧ ¬ (r.st (i + 1)).Executes k := by
  rw [State.executes_iff, State.executes_iff]
  exact (ideal hi).suspends_iff (State.InvM.event_ne_runCalled (r.next i hi).2)

/-- The body of a done coroutine does not execute. -/
theorem not_executes_of_done {k : ℕ} (hi : (i : ℕ∞) ≤ r.len)
    (hd : (r.st i).abs.InState k .done) : ¬ (r.st i).Executes k := by
  intro he
  cases hd.unique ((running_iff_executes hi).mpr he)

/-- What is done stays done. -/
theorem done_of_le {k m : ℕ} (him : i ≤ m) (hm : (m : ℕ∞) ≤ r.len)
    (hd : (r.st i).abs.InState k .done) : (r.st m).abs.InState k .done := by
  induction him with
  | refl => exact hd
  | step _ ih =>
      have hlt := Run.lt_of_succ_le hm
      exact (ideal hlt).done (inv hlt.le).ideal (ih hlt.le)

end Execution

end CCoroutine
