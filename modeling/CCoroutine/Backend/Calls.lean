import CCoroutine.Refinement.Runs
import CCoroutine.Safety.Table

/-!
# Backend — Calls

`src/coroutine.c` is built with one of two context switches, chosen by `#if USE_ASM_CTX`.  The code
around them is the same: each function of the API does its work up to a switch of contexts, or up
to its return (`stepUpTo`), and goes on wherever the switch leads.  What a function does before the
switch leaves every saved context alone, and it switches between main and the coroutine it is
about (`InvM.stepUpTo_from`); after the switch, only the caller's context has changed
(`InvM.switched`).
-/

namespace CCoroutine

/-- Whose stack the code being executed is on. -/
def Ctl.owner {α : Type} : Ctl α → Option α
  | .user who | .loop who => who

namespace State

variable {Fn Arg : Type} {s s' : State Fn Arg} {a : Act Fn Arg}

/-! ### The switch -/

theorem ctxOf_save_self (s : State Fn Arg) (i : Option Addr) (pt : Ctx) :
    (s.save i pt).ctxOf i = pt := by
  cases i with
  | none => rfl
  | some co => simp [save, ctxOf, modCo]

theorem ctxOf_save_of_ne (s : State Fn Arg) {i j : Option Addr} (h : j ≠ i) (pt : Ctx) :
    (s.save i pt).ctxOf j = s.ctxOf j := by
  cases i with
  | none =>
      cases j with
      | none => exact absurd rfl h
      | some b => rfl
  | some a =>
      cases j with
      | none => rfl
      | some b =>
          have hne : b ≠ a := fun e => h (congrArg some e)
          simp [save, ctxOf, modCo, hne]

/-! ### Before the switch -/

/-- What a function does before it switches leaves alone the contexts, the functions, the `co_run`
calls in progress and what is allocated. -/
structure Prepares (s s₁ : State Fn Arg) : Prop where
  live : s₁.live = s.live
  ctx : ∀ i, s₁.ctxOf i = s.ctxOf i
  frames : s₁.frames = s.frames
  fn : ∀ x, (s₁.mem x).fn = (s.mem x).fn

namespace Prepares

variable {s₁ s₂ : State Fn Arg}

theorem trans (h₁ : s.Prepares s₁) (h₂ : s₁.Prepares s₂) : s.Prepares s₂ :=
  ⟨h₂.live.trans h₁.live, fun i => (h₂.ctx i).trans (h₁.ctx i), h₂.frames.trans h₁.frames,
    fun x => (h₂.fn x).trans (h₁.fn x)⟩

theorem modCo (s : State Fn Arg) (co : Addr) {f : Coroutine Fn Arg → Coroutine Fn Arg}
    (hctx : ∀ r, (f r).ctx = r.ctx) (hfn : ∀ r, (f r).fn = r.fn) : s.Prepares (s.modCo co f) := by
  refine ⟨rfl, fun i => ?_, rfl, fun x => ?_⟩
  · cases i with
    | none => rfl
    | some x =>
        by_cases e : x = co
        · subst e; simp [ctxOf, State.modCo, hctx]
        · simp [ctxOf, State.modCo, e]
  · by_cases e : x = co
    · subst e; simp [State.modCo, hfn]
    · simp [State.modCo, e]

theorem qPush {co : Addr} (h : s.qPush co = .ok s₁) : s.Prepares s₁ := by
  obtain ⟨hq, rfl⟩ := qPush_inv h
  exact ⟨rfl, fun i => by cases i <;> rfl, rfl, fun x => rfl⟩

theorem wakeupLoop {done : Addr} {l : List Addr} :
    ∀ {s : State Fn Arg}, wakeupLoop done l s = .ok s₁ → s.Prepares s₁ := by
  induction l with
  | nil =>
      rintro s ⟨⟩
      exact ⟨rfl, fun i => rfl, rfl, fun x => rfl⟩
  | cons co l ih =>
      intro s h
      simp only [State.wakeupLoop] at h
      split at h
      · cases hp : (s.modCo co fun r => { r with state := .ready, awaiting := none }).qPush co with
        | error e => rw [hp] at h; cases h
        | ok s₂ =>
            rw [hp] at h
            have hmod := modCo s co (f := fun r => { r with state := .ready, awaiting := none })
              (fun r => rfl) fun r => rfl
            exact (hmod.trans (qPush hp)).trans (ih h)
      · exact ih h

end Prepares

/-- Who switches to whom. -/
inductive Switching (s : State Fn Arg) : Option Addr → Option Addr → Prop where
  /-- A body gives control back. -/
  | back {c : Addr} (hc : s.ctl = .user (some c)) : Switching s (some c) none
  /-- The loop of main's `co_run` resumes a coroutine. -/
  | into {co : Addr} (hc : s.ctl = .loop none) (hl : s.live co = true)
      (hr : (s.mem co).state = .ready) : Switching s none (some co)

/-- A call that returns is still on the stack it was made on, and has changed no context. -/
structure Returns (s s' : State Fn Arg) : Prop where
  owner : s'.ctl.owner = s.ctl.owner
  main : s'.mainCtx = s.mainCtx
  ctx : ∀ co, s.live co = true → (s'.mem co).ctx = (s.mem co).ctx

theorem Returns.refl (s : State Fn Arg) : s.Returns s := ⟨rfl, rfl, fun _ _ => rfl⟩

end State

/-- What a function called in `s` has done. -/
def Outcome.From {Fn Arg : Type} (s : State Fn Arg) : Outcome Fn Arg → Prop
  | .returns s' => s.Returns s'
  | .switches s₁ src dst _ => s.Prepares s₁ ∧ s.Switching src dst

namespace State

variable {Fn Arg : Type} {s s' : State Fn Arg} {a : Act Fn Arg} {o : Outcome Fn Arg}
  {who : Option Addr}

/-- The body that executes is the running coroutine. -/
theorem InvM.switching_back (h : s.InvM) (hc : s.ctl = .user who) {co : Addr}
    (hr : s.running = some co) : s.Switching (some co) none := by
  cases who with
  | none => cases hr.symm.trans (h.running_main hc)
  | some c =>
      obtain rfl : co = c := Option.some.inj (hr.symm.trans (h.attached c hc))
      exact .back hc

theorem InvM.coYieldUpTo_from (h : s.InvM) (hc : s.ctl = .user who)
    (hu : s.coYieldUpTo who = .ok o) : o.From s := by
  unfold coYieldUpTo at hu
  cases hr : s.running with
  | none => rw [hr] at hu; cases hu
  | some co =>
      simp only [hr] at hu
      obtain ⟨s₁, hp, hu⟩ := exists_of_bind_eq_ok hu
      cases hu
      have hmod := Prepares.modCo s co (f := fun r => { r with state := .ready })
        (fun r => rfl) fun r => rfl
      exact ⟨hmod.trans (.qPush hp), h.switching_back hc hr⟩

theorem InvM.coAwaitUpTo_from (h : s.InvM) (hc : s.ctl = .user who) {other : Option Addr}
    (hu : s.coAwaitUpTo who other = .ok o) : o.From s := by
  cases other with
  | none => cases hu
  | some other =>
      unfold coAwaitUpTo at hu
      by_cases hd : (s.mem other).state = .done
      · simp only [if_pos hd] at hu
        cases hu
        exact .refl s
      · simp only [if_neg hd] at hu
        cases hr : s.running with
        | none => rw [hr] at hu; cases hu
        | some co =>
            rw [hr] at hu
            cases hu
            exact ⟨.modCo s co (fun r => rfl) fun r => rfl, h.switching_back hc hr⟩

theorem coEntryRetUpTo_from {co : Addr} (hc : s.ctl = .user (some co))
    (hu : s.coEntryRetUpTo co = .ok o) : o.From s := by
  unfold coEntryRetUpTo at hu
  obtain ⟨s₁, hw, hu⟩ := exists_of_bind_eq_ok hu
  cases hu
  have hmod := Prepares.modCo s co (f := fun r => { r with state := .done })
    (fun r => rfl) fun r => rfl
  exact ⟨hmod.trans (.wakeupLoop hw), .back hc⟩

theorem InvM.runLoopUpTo_from (h : s.InvM) (hc : s.ctl = .loop none)
    (hu : s.runLoopUpTo none = .ok o) : o.From s := by
  cases hq : s.runQueue with
  | nil =>
      rw [runLoopUpTo, qPop_nil hq] at hu
      cases hu
      exact ⟨by rw [hc]; rfl, rfl, fun _ _ => rfl⟩
  | cons co rest =>
      obtain ⟨q', hp, -⟩ := qPop_cons hq
      simp only [runLoopUpTo, hp] at hu
      split at hu <;> cases hu
      have hmod := Prepares.modCo s co (f := fun r => { r with state := .running })
        (fun r => rfl) fun r => rfl
      obtain ⟨hl, hr⟩ := h.mem_runQueue.mp (hq ▸ List.mem_cons_self)
      exact ⟨⟨hmod.live, hmod.ctx, hmod.frames, hmod.fn⟩, .into hc hl hr⟩

/-- `calloc` returns memory that is not in use. -/
theorem coCreate_returning {fn : Option Fn} {arg : Option Arg} {n : ℕ} {m : Alloc}
    {co : Option Addr} (hl : s.Legal (.create fn arg n m))
    (h : s.coCreate fn arg n m = .ok (co, s')) : s.Returns s' := by
  have hne : ∀ {b}, s.live b = false → ∀ x, s.live x = true → x ≠ b := by
    rintro b hb x hx rfl
    cases hx.symm.trans hb
  obtain ⟨f, rfl, -, ⟨rfl, -, rfl⟩ | ⟨b, rfl, -, rfl⟩ | ⟨b, stack, hq, rfl, -, rfl⟩⟩ :=
    coCreate_inv h
  · exact .refl _
  · refine ⟨rfl, rfl, fun x hx => ?_⟩
    simp [hne hl.2.2 x hx]
  · refine ⟨rfl, rfl, fun x hx => ?_⟩
    simp [State.created, hne hl.2.2 x hx]

/-- **What the functions do**, up to a switch of contexts or to their return. -/
theorem InvM.stepUpTo_from (h : s.InvM) (hl : s.Legal a) (hu : s.stepUpTo a = .ok o) :
    o.From s := by
  unfold stepUpTo at hu
  cases hc : s.ctl with
  | loop who =>
      obtain rfl := h.loop_main hc
      cases a with
      | sched =>
          simp only [hc] at hu
          exact h.runLoopUpTo_from hc hu
      | create | free | yield | await | run | state | id | ret => simp [hc] at hu
  | user who =>
      simp only [hc] at hu
      cases a with
      | create fn arg n m =>
          simp only [callUpTo] at hu
          cases he : s.coCreate fn arg n m with
          | error e => rw [he] at hu; cases hu
          | ok r =>
              rw [he] at hu
              cases hu
              exact coCreate_returning hl he
      | free co =>
          simp only [callUpTo] at hu
          cases he : s.coFree co with
          | error e => rw [he] at hu; cases hu
          | ok s' =>
              rw [he] at hu
              cases hu
              obtain ⟨b, -, rfl⟩ := coFree_inv he
              exact ⟨rfl, rfl, fun _ _ => rfl⟩
      | yield => exact h.coYieldUpTo_from hc hu
      | await other => exact h.coAwaitUpTo_from hc hu
      | run => cases hu; exact ⟨by rw [hc]; rfl, rfl, fun _ _ => rfl⟩
      | id => cases hu; exact .refl s
      | state co => cases co <;> cases hu; exact .refl s
      | sched => cases hu
      | ret =>
          cases who with
          | none => cases hu
          | some co => exact coEntryRetUpTo_from hc hu

/-! ### After the switch -/

variable {s₁ : State Fn Arg} {src dst : Option Addr} {pt : Ctx}

theorem switchTo_keeps {ctx : Ctx} (h : s.switchTo ctx = .ok s') :
    s'.live = s.live ∧ ∀ i, s'.ctxOf i = s.ctxOf i := by
  obtain ⟨r, c, rfl⟩ := switchTo_inv h
  refine ⟨rfl, fun i => ?_⟩
  cases i <;> rfl

/-- **After a switch** the code being executed is on the stack of the target, and the caller's
context is its only change to the contexts. -/
theorem InvM.switched (h : s.InvM) (hs : s.Switching src dst) (hp : s.Prepares s₁)
    (hf : (s₁.save src pt).switchTo (s.ctxOf dst) = .ok s') :
    s'.ctl.owner = dst ∧ s'.live = s.live ∧ s'.ctxOf src = pt ∧
      ∀ i, i ≠ src → s'.ctxOf i = s.ctxOf i := by
  obtain ⟨hlive, hctx⟩ := switchTo_keeps hf
  have hsave : (s₁.save src pt).live = s.live := by
    rw [← hp.live]
    cases src <;> rfl
  refine ⟨?_, hlive.trans hsave, (hctx src).trans (ctxOf_save_self _ _ _), fun i hi => ?_⟩
  · cases hs with
    | @back c hc =>
        obtain ⟨-, o, rest, hframes, hmain⟩ := h.toInv.holds h.attached hc
        obtain rfl : o = none := by
          cases o with
          | none => rfl
          | some d => exact absurd (hframes ▸ List.mem_cons_self) (h.not_framed d)
        simp only [ctxOf, hmain, switchTo] at hf
        split at hf <;> cases hf
        rfl
    | @into co hc hl hr =>
        have hfn : ((s₁.save none pt).mem co).fn ≠ none := by
          rw [show ((s₁.save none pt).mem co).fn = (s₁.mem co).fn from rfl, hp.fn]
          exact h.fn co hl
        rw [ctxOf, switchTo_body (h.ctx co hl hr) hfn] at hf
        cases hf
        rfl
  · rw [hctx, ctxOf_save_of_ne _ hi, hp.ctx]

/-- The context that `co_create` has set up. -/
theorem created_ctx {fn : Option Fn} {arg : Option Arg} {n : ℕ} {co stack : Addr}
    (h : s.step (.create fn arg n (.ok co stack)) = .ok s') : (s'.mem co).ctx = .trampoline co := by
  obtain ⟨-, o, -, he⟩ := step_create_inv h
  obtain ⟨f, rfl, -, ⟨⟨⟩, -⟩ | ⟨b, ⟨⟩, -⟩ | ⟨b, st, hq, ⟨⟩, -, rfl⟩⟩ := coCreate_inv he
  simp [State.created, newCo]

end State

end CCoroutine
