import CCoroutine.Backend.Asm
import CCoroutine.Backend.Ucontext
import CCoroutine.Temporal.Fifo

/-!
# Backend — Agreement

The two builds of the scheduler agree.  A deterministic program goes through the same scheduler
states with any two lawful context switches (`Build.lockstep`), in particular with the two that
`src/coroutine.c` has (`Build.backends_agree`).
-/

namespace CCoroutine
open Support (Run Steps)

namespace Build

variable {W W₁ W₂ Fn Arg : Type}

/-! ### Runs of a program -/

section

variable {B : Backend W} {V : B.View} {b : Build W Fn Arg} (r : Run (Step B) b)

/-- The scheduler states up to position `i`. -/
def history (i : ℕ) : List (State Fn Arg) := (List.range (i + 1)).map fun j => (r.st j).s

/-- The ids that are resumed before position `i`, in order. -/
def resumed (i : ℕ) : List ℕ :=
  (List.range i).flatMap fun j => ((r.st j).s.event (r.act j)).resumedIds

/-- The run is one of the program `σ`: what is called next, and the addresses that an allocation
returns, are a function of the states so far. -/
def Follows (σ : List (State Fn Arg) → Act Fn Arg) : Prop :=
  ∀ i : ℕ, (i : ℕ∞) < r.len → r.act i = σ (history r i)

variable {r}

theorem history_succ (i : ℕ) : history r (i + 1) = history r i ++ [(r.st (i + 1)).s] := by
  rw [history, List.range_succ, List.map_append]
  rfl

theorem resumed_succ (i : ℕ) :
    resumed r (i + 1) = resumed r i ++ ((r.st i).s.event (r.act i)).resumedIds := by
  simp [resumed, List.range_succ]

theorem inv_of_run (h : b.Inv V) {i : ℕ} (hi : (i : ℕ∞) ≤ r.len) : (r.st i).Inv V :=
  r.invariant h (fun _ _ _ h hs => (h.step hs).2) hi

/-- What a finite run of the scheduler without creations does, a build does. -/
theorem Inv.exists_steps (hv : V.Live) (h : b.Inv V) {as : List (Act Fn Arg)} {s' : State Fn Arg}
    (hs : Steps StepM b.s as s') (hnew : ∀ a ∈ as, a.newAddr = none) :
    ∃ w', Steps (Step B) b as ⟨s', w'⟩ := by
  generalize hb : b.s = s at hs
  induction hs generalizing b with
  | refl s => subst hb; exact ⟨b.w, .refl _⟩
  | @more s s₁ s' a as hstep _ ih =>
      subst hb
      have ha := hnew a List.mem_cons_self
      obtain ⟨w₁, h₁⟩ := h.progress hv hstep fun fn arg n co stack e => by
        rw [e] at ha
        cases ha
      obtain ⟨w', h'⟩ := ih (h.step h₁).2 (fun a ha => hnew a (List.mem_cons_of_mem _ ha)) rfl
      exact ⟨w', .more h₁ h'⟩

end

/-! ### Two builds -/

section

variable {B₁ : Backend W₁} {B₂ : Backend W₂} {V₁ : B₁.View} {V₂ : B₂.View}
  {b₁ : Build W₁ Fn Arg} {b₂ : Build W₂ Fn Arg} {r₁ : Run (Step B₁) b₁} {r₂ : Run (Step B₂) b₂}

/-- **Two builds of a program stay in step.** -/
theorem lockstep {σ : List (State Fn Arg) → Act Fn Arg} (h₁ : b₁.Inv V₁) (h₂ : b₂.Inv V₂)
    (hs : b₁.s = b₂.s) (f₁ : Follows r₁ σ) (f₂ : Follows r₂ σ) {i : ℕ} (hi₁ : (i : ℕ∞) ≤ r₁.len)
    (hi₂ : (i : ℕ∞) ≤ r₂.len) :
    (r₁.st i).s = (r₂.st i).s ∧ history r₁ i = history r₂ i ∧ resumed r₁ i = resumed r₂ i := by
  induction i with
  | zero =>
      have h₀ : (r₁.st 0).s = (r₂.st 0).s := by rw [r₁.start, r₂.start, hs]
      exact ⟨h₀, congrArg (fun s => [s]) h₀, rfl⟩
  | succ i ih =>
      have hlt₁ := Run.lt_of_succ_le hi₁
      have hlt₂ := Run.lt_of_succ_le hi₂
      obtain ⟨hst, hhist, hres⟩ := ih hlt₁.le hlt₂.le
      have hact : r₁.act i = r₂.act i := by rw [f₁ i hlt₁, f₂ i hlt₂, hhist]
      -- the scheduler's step is a function of its state and of the call
      have step₁ := ((inv_of_run h₁ hlt₁.le).step (r₁.next i hlt₁)).1.1.2
      have step₂ := ((inv_of_run h₂ hlt₂.le).step (r₂.next i hlt₂)).1.1.2
      have hst' : (r₁.st (i + 1)).s = (r₂.st (i + 1)).s := by
        rw [hst, hact] at step₁
        exact Except.ok.inj (step₁.symm.trans step₂)
      refine ⟨hst', ?_, ?_⟩
      · rw [history_succ, history_succ, hhist, hst']
      · rw [resumed_succ, resumed_succ, hres, hst, hact]

end

end Build

namespace Build

variable {Fn Arg : Type}

/-- **The two backends agree.**  Main calls and the bodies call the same functions, as a
deterministic program has them call, and the allocator returns the same addresses; then

* the scheduler of the asm build and that of the ucontext build are in the same state after every
  call, and have resumed the same ids in the same order;
* neither is stuck: both take the steps of the scheduler and no others, where the asm build has
  memory for the stacks. -/
theorem backends_agree {img : Asm.Image} {σ : List (State Fn Arg) → Act Fn Arg} {w₁ : Asm.World}
    {w₂ : Ucontext.World} (hw₁ : w₁.Boots) (hw₂ : w₂.cur = none)
    {r₁ : Run (Step (Asm.backend img)) (⟨.init, w₁⟩ : Build Asm.World Fn Arg)}
    {r₂ : Run (Step Ucontext.backend) (⟨.init, w₂⟩ : Build Ucontext.World Fn Arg)}
    (f₁ : Follows r₁ σ) (f₂ : Follows r₂ σ) {i : ℕ} (hi₁ : (i : ℕ∞) ≤ r₁.len)
    (hi₂ : (i : ℕ∞) ≤ r₂.len) :
    (r₁.st i).s = (r₂.st i).s ∧ resumed r₁ i = resumed r₂ i ∧
    ∀ a s', img.Calls → Enough (Asm.view img) (r₁.st i).w a →
      ((∃ w, Step (Asm.backend img) (r₁.st i) a ⟨s', w⟩) ↔ StepM (r₁.st i).s a s') ∧
      ((∃ w, Step Ucontext.backend (r₂.st i) a ⟨s', w⟩) ↔ StepM (r₂.st i).s a s') := by
  have h₁ : Inv (Asm.view img) (⟨.init, w₁⟩ : Build Asm.World Fn Arg) := inv_init hw₁.good hw₁.main
  have h₂ : Inv Ucontext.view (⟨.init, w₂⟩ : Build Ucontext.World Fn Arg) := inv_init trivial hw₂
  obtain ⟨hst, -, hres⟩ := lockstep h₁ h₂ rfl f₁ f₂ hi₁ hi₂
  refine ⟨hst, hres, fun a s' hcalls hroom => ⟨?_, ?_⟩⟩
  · exact (inv_of_run h₁ hi₁).step_iff (Asm.view_live hcalls) hroom
  · refine (inv_of_run h₂ hi₂).step_iff Ucontext.view_live fun fn arg n co stack e => ?_
    obtain ⟨-, p, hfor, -⟩ := hroom fn arg n co stack e
    exact hfor.lt

/-! ### A concrete program -/

/-- The program that makes the calls of `script`, one in each step. -/
def scripted (script : List (Act Fn Arg)) (h : List (State Fn Arg)) : Act Fn Arg :=
  script.getD (h.length - 1) .id

theorem follows_scripted {W : Type} {B : Backend W} {b : Build W Fn Arg} {r : Run (Step B) b}
    {script : List (Act Fn Arg)} (h : ∀ i, r.act i = script.getD i .id) :
    Follows r (scripted script) := by
  intro i _
  rw [h, scripted, history, List.length_map, List.length_range, Nat.add_sub_cancel]

/-- A coroutine that yields once. -/
def pingScript : List (Act Unit Unit) :=
  [.create (some ()) none 4096 (.ok 0x3000 0x4000), .run, .sched, .yield, .sched, .ret, .sched]

/-- Main executes, and there is no other context. -/
def pingWorld : Asm.World where
  c := {
    m := Asm.pingStart.m
    cur := none
    layout := (⟨fun _ => none, nofun⟩ : Asm.Layout (Option Addr)).add none Asm.pingMain nofun
    status := fun _ => .fresh 0 }
  point _ := .zero

theorem pingWorld_boots : pingWorld.Boots where
  start i := by cases i <;> simp [pingWorld, Asm.Layout.add]
  main := rfl
  room := by
    rintro _ ⟨⟩
    decide

/-- The record of the coroutine is at `0x3000`, and its stack at `0x4000`. -/
theorem pingWorld_room : pingWorld.Room 0x3000 0x4000 4096 := by
  refine ⟨rfl, Asm.pingPlace 0x3030 0x4000 (by decide) (by decide), ⟨rfl, rfl, rfl⟩,
    ⟨by decide, by decide⟩, fun j q _ hq => ?_⟩
  cases j with
  | some co => cases hq
  | none =>
      cases hq
      exact ⟨(Support.Region.apart_of_le (by decide)).symm,
        (Support.Region.apart_of_le (by decide)).symm,
        (Support.Region.apart_of_le (by decide)).symm,
        (Support.Region.apart_of_le (by decide)).symm⟩

theorem exists_pingRun {W : Type} {B : Backend W} {V : B.View} (hv : V.Live)
    {w : W} (h : Inv V (⟨.init, w⟩ : Build W Unit Unit)) (hroom : V.room w 0x3000 0x4000 4096) :
    ∃ r : Run (Step B) (⟨.init, w⟩ : Build W Unit Unit), r.len = 7 ∧
      ∀ i, r.act i = pingScript.getD i .id := by
  have hexec : (Support.exec State.nextM .init pingScript).isSome = true := by decide
  obtain ⟨s', hs'⟩ := Option.isSome_iff_exists.mp hexec
  have hsteps := Support.steps_of_exec (fun _ _ _ => State.stepM_of_nextM) hs'
  cases hsteps with
  | more h₁ hrest =>
      obtain ⟨w₁, hb₁⟩ := h.progress hv h₁ fun fn arg n co stack e => by cases e; exact hroom
      obtain ⟨w', hb'⟩ := (h.step hb₁).2.exists_steps hv hrest (by decide)
      obtain ⟨r, hlen, -, hact⟩ := (Steps.more hb₁ hb').exists_run .id
      exact ⟨r, hlen, hact⟩

theorem backends_agree_ping :
    ∃ (r₁ : Run (Step (Asm.backend Asm.pingImage)) (⟨.init, pingWorld⟩ : Build _ Unit Unit))
      (r₂ : Run (Step Ucontext.backend) (⟨.init, none, fun _ => .unset⟩ : Build _ Unit Unit)),
      r₁.len = 7 ∧ r₂.len = 7 ∧ (r₁.st 7).s = (r₂.st 7).s ∧ resumed r₁ 7 = resumed r₂ 7 := by
  have hcalls : Asm.pingImage.Calls := ⟨17, 18, rfl⟩
  obtain ⟨r₁, hlen₁, hact₁⟩ := exists_pingRun (Asm.view_live hcalls)
    (inv_init pingWorld_boots.good rfl) pingWorld_room
  obtain ⟨r₂, hlen₂, hact₂⟩ := exists_pingRun Ucontext.view_live
    (inv_init (w := ⟨none, fun _ => .unset⟩) trivial rfl) (show (0x3000 : Addr) < 2 ^ 64 by decide)
  obtain ⟨hst, hres, -⟩ := backends_agree (i := 7) pingWorld_boots rfl (follows_scripted hact₁)
    (follows_scripted hact₂) hlen₁.ge hlen₂.ge
  exact ⟨r₁, r₂, hlen₁, hlen₂, hst, hres⟩

end Build

end CCoroutine
