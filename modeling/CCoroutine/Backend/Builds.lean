import CCoroutine.Backend.Calls

/-!
# Backend — Builds

A build of the scheduler with a context switch of its own (`Build.Step`): the functions of the API
up to a switch, and then whatever code the switch leads to.

A context switch is lawful (`Backend.View`) when every context that does not execute holds the place
where it was suspended, or the entry of its coroutine when it is new, and a switch leads there.
With a lawful switch a build takes exactly the steps of the scheduler (`Build.Inv.step`,
`Build.Inv.progress`).
-/

namespace CCoroutine

variable {W Fn Arg : Type}

/-- The size of the stack for a request of `n` bytes. -/
def stackSizeFor (n : ℕ) : ℕ := if n = 0 then defaultStackSize else n

/-- A context switch; `W` is what it works on. -/
structure Backend (W : Type) where
  /-- The code between two calls. -/
  user : W → W → Prop
  /-- `co_create` sets up a context for the coroutine at `co`, with a stack of `n` bytes. -/
  create (w : W) (co stack : Addr) (n : ℕ) (w' : W) : Prop
  /-- `co_free`. -/
  drop (w : W) (co : Addr) (w' : W) : Prop
  /-- Code that will continue at `pt` switches from `src` to `dst`, and `k` is executed next. -/
  switch (w : W) (src dst : Option Addr) (pt : Ctx) (w' : W) (k : Ctx) : Prop

/-- A call that returns. -/
def Backend.call (B : Backend W) (w : W) (a : Act Fn Arg) (w' : W) : Prop :=
  match a with
  | .create _ _ n (.ok co stack) => B.create w co stack (stackSizeFor n) w'
  | .free (some co) => B.drop w co w'
  | _ => B.user w w'

/-- The scheduler state, and what the context switch works on.  The contexts that `s` records are
those of the code that called the switch; where a switch leads is not read from them. -/
structure Build (W Fn Arg : Type) where
  s : State Fn Arg
  w : W

/-- A step of a program that keeps to the API and calls `co_run` from main only. -/
inductive Build.Step (B : Backend W) : Build W Fn Arg → Act Fn Arg → Build W Fn Arg → Prop where
  | returns {b : Build W Fn Arg} {a : Act Fn Arg} {s' : State Fn Arg} {w' : W} (hl : b.s.Legal a)
      (hm : b.s.FromMain a) (hu : b.s.stepUpTo a = .ok (.returns s')) (hw : B.call b.w a w') :
      Step B b a ⟨s', w'⟩
  | switches {b : Build W Fn Arg} {a : Act Fn Arg} {s₁ s' : State Fn Arg} {w' : W}
      {src dst : Option Addr} {pt k : Ctx} (hl : b.s.Legal a) (hm : b.s.FromMain a)
      (hu : b.s.stepUpTo a = .ok (.switches s₁ src dst pt)) (hw : B.switch b.w src dst pt w' k)
      (hs : (s₁.save src pt).switchTo k = .ok s') : Step B b a ⟨s', w'⟩

/-! ### Lawful switches -/

/-- What a context switch guarantees, in terms of the context that executes (`cur`) and of the
places that the others hold. -/
structure Backend.View (B : Backend W) where
  good : W → Prop
  cur : W → Option Addr
  holds : W → Option Addr → Ctx → Prop
  /-- There is room for a new context. -/
  room : W → (co stack : Addr) → (n : ℕ) → Prop
  user_keeps : ∀ {w w'}, good w → B.user w w' → good w' ∧ cur w' = cur w ∧
    ∀ i k, i ≠ cur w → holds w i k → holds w' i k
  create_keeps : ∀ {w w' co stack n}, good w → B.create w co stack n w' →
    good w' ∧ cur w' = cur w ∧ holds w' (some co) (.trampoline co) ∧
    ∀ i k, i ≠ cur w → i ≠ some co → holds w i k → holds w' i k
  drop_keeps : ∀ {w w' co}, good w → B.drop w co w' → good w' ∧ cur w' = cur w ∧
    ∀ i k, i ≠ cur w → i ≠ some co → holds w i k → holds w' i k
  /-- A switch leads to the place that the target holds. -/
  switch_leads : ∀ {w w' dst pt k k'}, good w → dst ≠ cur w → holds w dst k →
    B.switch w (cur w) dst pt w' k' → k' = k ∧ good w' ∧ cur w' = dst ∧ holds w' (cur w) pt ∧
    ∀ i j, i ≠ cur w → i ≠ dst → holds w i j → holds w' i j

/-- Nothing is in the way of the operations. -/
structure Backend.View.Live {B : Backend W} (V : B.View) : Prop where
  exists_user : ∀ {w}, V.good w → ∃ w', B.user w w'
  exists_create : ∀ {w co stack n}, V.good w → V.room w co stack n → ∃ w', B.create w co stack n w'
  exists_drop : ∀ {w co}, V.good w → some co ≠ V.cur w → ∃ w', B.drop w co w'
  exists_switch : ∀ {w dst k} (pt), V.good w → dst ≠ V.cur w → V.holds w dst k →
    ∃ w' k', B.switch w (V.cur w) dst pt w' k'

/-- Main, or an unfreed coroutine. -/
def State.Present (s : State Fn Arg) (i : Option Addr) : Prop :=
  ∀ co, i = some co → s.live co = true

namespace Build

variable {B : Backend W} {V : B.View} {b b' : Build W Fn Arg} {a : Act Fn Arg} {s' : State Fn Arg}

/-- The contexts that do not execute hold the places that the scheduler has saved. -/
structure Inv (V : B.View) (b : Build W Fn Arg) : Prop where
  inv : b.s.InvM
  good : V.good b.w
  cur : V.cur b.w = b.s.ctl.owner
  holds : ∀ i, i ≠ b.s.ctl.owner → b.s.Present i → V.holds b.w i (b.s.ctxOf i)

/-- There is room for the context that a call sets up. -/
def Enough (V : B.View) (w : W) (a : Act Fn Arg) : Prop :=
  ∀ fn arg n co stack, a = .create fn arg n (.ok co stack) → V.room w co stack (stackSizeFor n)

namespace Inv

/-- A body that gives control back finds main's loop, and the loop finds the coroutine that it
resumes. -/
theorem holds_target {src dst : Option Addr} (h : b.Inv V) (hs : b.s.Switching src dst) :
    b.s.ctl.owner = src ∧ dst ≠ src ∧ V.holds b.w dst (b.s.ctxOf dst) := by
  cases hs with
  | @back c hc =>
      have howner : b.s.ctl.owner = some c := by rw [hc]; rfl
      have hne : none ≠ some c := (Option.some_ne_none c).symm
      refine ⟨howner, hne, h.holds none (howner ▸ hne) fun x e => ?_⟩
      cases e
  | @into co hc hl hr =>
      have howner : b.s.ctl.owner = none := by rw [hc]; rfl
      have hne := Option.some_ne_none co
      refine ⟨howner, hne, h.holds (some co) (howner ▸ hne) fun x e => ?_⟩
      cases e
      exact hl

/-- What the calls that return do to the contexts. -/
theorem returned (h : b.Inv V) (hl : b.s.Legal a) {s' : State Fn Arg} {w' : W}
    (hu : b.s.stepUpTo a = .ok (.returns s')) (hs : StepM b.s a s') (hw : B.call b.w a w') :
    Inv V (⟨s', w'⟩ : Build W Fn Arg) := by
  obtain ⟨howner, hmain, hctx⟩ : b.s.Returns s' := h.inv.stepUpTo_from hl hu
  -- the contexts that were there before
  have hold : ∀ i, i ≠ s'.ctl.owner → b.s.Present i →
      i ≠ V.cur b.w ∧ V.holds b.w i (s'.ctxOf i) := by
    intro i hi hp
    rw [howner] at hi
    have hkeep : s'.ctxOf i = b.s.ctxOf i := by
      cases i with
      | none => exact hmain
      | some co => exact hctx co (hp co rfl)
    rw [hkeep, h.cur]
    exact ⟨hi, h.holds i hi hp⟩
  have present : a.newAddr = none → ∀ i, s'.Present i → b.s.Present i := by
    intro hn i hi co e
    rcases State.live_before hs.1.2 (hi co e) with ⟨hlive, -⟩ | hnew
    · exact hlive
    · cases hn.symm.trans hnew
  have hinv := h.inv.step hs
  have of_user : B.user b.w w' → a.newAddr = none → Inv V (⟨s', w'⟩ : Build W Fn Arg) := by
    intro hw hn
    obtain ⟨hgood, hcur, hholds⟩ := V.user_keeps h.good hw
    refine ⟨hinv, hgood, by rw [hcur, h.cur, howner], fun i hi hp => ?_⟩
    obtain ⟨hne, hi⟩ := hold i hi (present hn i hp)
    exact hholds i _ hne hi
  cases a with
  | yield | await | run | state | id | ret | sched => exact of_user hw rfl
  | create fn arg n m =>
      cases m with
      | callocFails | mallocFails => exact of_user hw rfl
      | ok co stack =>
          obtain ⟨hgood, hcur, hnew, hholds⟩ := V.create_keeps h.good hw
          refine ⟨hinv, hgood, by rw [hcur, h.cur, howner], fun i hi hp => ?_⟩
          by_cases e : i = some co
          · subst e
            rw [State.ctxOf, State.created_ctx hs.1.2]
            exact hnew
          · have hp' : b.s.Present i := by
              intro x ex
              rcases State.live_before hs.1.2 (hp x ex) with ⟨hlive, -⟩ | hnew
              · exact hlive
              · exact absurd (ex.trans hnew.symm) e
            obtain ⟨hne, hi⟩ := hold i hi hp'
            exact hholds i _ hne e hi
  | free co =>
      obtain ⟨-, x, rfl, -⟩ := hl
      obtain ⟨hgood, hcur, hholds⟩ := V.drop_keeps h.good hw
      refine ⟨hinv, hgood, by rw [hcur, h.cur, howner], fun i hi hp => ?_⟩
      obtain ⟨hne, hi⟩ := hold i hi (present rfl i hp)
      refine hholds i _ hne ?_ hi
      rintro rfl
      rcases State.live_before hs.1.2 (hp x rfl) with ⟨-, hfree⟩ | hnew
      · exact hfree rfl
      · cases hnew

/-- **A step of the build is a step of the scheduler**, and keeps the contexts. -/
theorem step (h : b.Inv V) (hs : Step B b a b') : StepM b.s a b'.s ∧ b'.Inv V := by
  cases hs with
  | @returns s' w' hl hm hu hw =>
      have hs : StepM b.s a s' := ⟨⟨hl, by rw [State.step, hu]; rfl⟩, hm⟩
      exact ⟨hs, h.returned hl hu hs hw⟩
  | @switches s₁ s' w' src dst pt k hl hm hu hw hfin =>
      obtain ⟨hprep, hdir⟩ := h.inv.stepUpTo_from hl hu
      obtain ⟨rfl, hne, htarget⟩ := h.holds_target hdir
      rw [← h.cur] at hw
      obtain ⟨rfl, hgood, hcur, hsrc, hothers⟩ := V.switch_leads h.good (h.cur ▸ hne) htarget hw
      have hctx : (s₁.save b.s.ctl.owner pt).ctxOf dst = b.s.ctxOf dst := by
        rw [State.ctxOf_save_of_ne _ hne, hprep.ctx]
      have hstep : StepM b.s a s' := by
        refine ⟨⟨hl, ?_⟩, hm⟩
        rw [State.step, hu]
        exact (congrArg _ hctx).trans hfin
      obtain ⟨howner, hlive, hpt, hkeep⟩ := h.inv.switched hdir hprep hfin
      refine ⟨hstep, h.inv.step hstep, hgood, hcur.trans howner.symm, fun i hi hp => ?_⟩
      by_cases e : i = b.s.ctl.owner
      · subst e
        rw [hpt, ← h.cur]
        exact hsrc
      · rw [hkeep i e]
        rw [howner] at hi
        exact hothers i _ (h.cur ▸ e) hi (h.holds i e fun co ei => hlive ▸ hp co ei)

theorem exists_call (hv : V.Live) (h : b.Inv V) (hl : b.s.Legal a) (hroom : Enough V b.w a) :
    ∃ w', B.call b.w a w' := by
  cases a with
  | yield | await | run | state | id | ret | sched => exact hv.exists_user h.good
  | create fn arg n m =>
      cases m with
      | callocFails | mallocFails => exact hv.exists_user h.good
      | ok co stack => exact hv.exists_create h.good (hroom fn arg n co stack rfl)
  | free co =>
      -- a coroutine that is done does not execute
      obtain ⟨⟨who, hc⟩, x, rfl, -, hd⟩ := hl
      refine hv.exists_drop h.good ?_
      rw [h.cur, hc]
      rintro rfl
      cases hd.symm.trans (h.inv.running_of_ctl hc).2

/-- **A build is never stuck**: it takes every step that the scheduler takes. -/
theorem progress (hv : V.Live) (h : b.Inv V) (hs : StepM b.s a s') (hroom : Enough V b.w a) :
    ∃ w', Step B b a ⟨s', w'⟩ := by
  obtain ⟨⟨hl, he⟩, hm⟩ := hs
  rw [State.step] at he
  obtain ⟨o, hu, hfin⟩ := State.exists_of_bind_eq_ok he
  cases o with
  | returns s₁ =>
      cases hfin
      obtain ⟨w', hw⟩ := h.exists_call hv hl hroom
      exact ⟨w', .returns hl hm hu hw⟩
  | switches s₁ src dst pt =>
      obtain ⟨hprep, hdir⟩ := h.inv.stepUpTo_from hl hu
      obtain ⟨rfl, hne, htarget⟩ := h.holds_target hdir
      rw [← h.cur] at hne
      obtain ⟨w', k, hw⟩ := hv.exists_switch pt h.good hne htarget
      obtain ⟨rfl, -⟩ := V.switch_leads h.good hne htarget hw
      have hctx : (s₁.save b.s.ctl.owner pt).ctxOf dst = b.s.ctxOf dst := by
        rw [State.ctxOf_save_of_ne _ (h.cur ▸ hne), hprep.ctx]
      refine ⟨w', .switches hl hm hu (h.cur ▸ hw) ?_⟩
      exact (congrArg _ hctx).symm.trans hfin

/-- The steps of a build are those of the scheduler. -/
theorem step_iff (hv : V.Live) (h : b.Inv V) (hroom : Enough V b.w a) :
    (∃ w', Step B b a ⟨s', w'⟩) ↔ StepM b.s a s' := by
  constructor
  · rintro ⟨w', hs⟩
    exact (h.step hs).1
  · intro hs
    exact h.progress hv hs hroom

end Inv

/-- Before main has called anything. -/
theorem inv_init {w : W} (hgood : V.good w) (hcur : V.cur w = none) :
    Inv V (⟨.init, w⟩ : Build W Fn Arg) := by
  refine ⟨State.invM_init, hgood, hcur, fun i hi hp => ?_⟩
  cases i with
  | none => exact absurd rfl hi
  | some co => cases hp co rfl

end Build

end CCoroutine
