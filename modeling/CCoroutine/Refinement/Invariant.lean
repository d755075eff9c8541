import CCoroutine.Refinement.Abstraction
import Mathlib.Data.List.Perm.Subperm

/-!
# Refinement — Invariant

The invariant of the C state (`State.Inv`): ids and addresses are consistent, the run-queue and
the links point to unfreed coroutines, each suspended coroutine's context leads back into its own
body, `S.running` and `S.main_ctx` are as the code being executed left them (`ControlOk`), and the
ideal system it stands for satisfies its own invariant.

A body that called `co_run` itself may find `S.running` at `NULL` when it executes again
(`Stranded`); otherwise the two globals agree with the code being executed (`Attached`).

The last part is read back at the level of addresses: a coroutine is in the run-queue exactly
when it is unfreed and ready (`mem_runQueue`), and the queue has room (`room`).
-/

namespace CCoroutine
open CCoroutine.Ideal (Task Sys Ev)

namespace State

variable {Fn Arg : Type}

/-- `S.running` is the coroutine `c`, and `S.main_ctx` the innermost of the loops in `frames`. -/
def Holds (s : State Fn Arg) (c : Addr) (frames : List (Option Addr)) : Prop :=
  s.running = some c ∧ ∃ o rest, frames = o :: rest ∧ s.mainCtx = .inResume o

theorem mem_frames {s : State Fn Arg} {o : Option Addr} {rest : List (Option Addr)}
    (hf : s.frames = o :: rest) : o ∈ s.frames := by
  rw [hf]
  exact List.mem_cons_self

/-- `S.running` is `NULL`, and `S.main_ctx` the loop that `c` itself called. -/
def Stranded (s : State Fn Arg) (c : Addr) : Prop :=
  s.running = none ∧ s.mainCtx = .inResume (some c)

/-- `S.running` and `S.main_ctx` against the code being executed.  A `co_run` called by a body
keeps the body in `S.running` until it resumes a coroutine. -/
def ControlOk (s : State Fn Arg) : Prop :=
  match s.ctl with
  | .user none => s.running = none
  | .user (some c) => s.live c = true ∧ (s.Holds c s.frames ∨ s.Stranded c)
  | .loop none => s.running = none ∧ ∃ rest, s.frames = none :: rest
  | .loop (some c) => ∃ rest, s.frames = some c :: rest ∧ (s.Holds c rest ∨ s.Stranded c)

/-- Back in the loop that `S.main_ctx` is. -/
theorem ControlOk.of_loop {s : State Fn Arg} {o : Option Addr} {rest : List (Option Addr)}
    (hc : s.ctl = .loop o) (hf : s.frames = o :: rest) (hr : s.running = none)
    (hm : s.mainCtx = .inResume o) : s.ControlOk := by
  rw [ControlOk, hc]
  cases o with
  | none => exact ⟨hr, rest, hf⟩
  | some c => exact ⟨rest, hf, .inr ⟨hr, hm⟩⟩

/-- When a body executes, `S.running` is its coroutine. -/
def Attached (s : State Fn Arg) : Prop := ∀ c, s.ctl = .user (some c) → s.running = some c

structure Inv (s : State Fn Arg) : Prop where
  addr : s.Addressed
  count : s.all.length ≤ maxCoroutines
  /-- A slot of `S.all` whose record was released is skipped by `wakeup_waiters`. -/
  stale : ∀ a ∈ s.all, s.live a = false → (s.mem a).state ≠ .waiting
  queued : ∀ a ∈ s.runQueue, s.live a = true
  target : ∀ a t, s.live a = true → (s.mem a).awaiting = some t → s.live t = true
  fn : ∀ a, s.live a = true → (s.mem a).fn ≠ none
  ctx : ∀ a, s.live a = true → (s.mem a).state = .ready → (s.mem a).ctx.body = some a
  /-- A waiting coroutine is suspended in `co_await`. -/
  inAwait : ∀ a, s.live a = true → (s.mem a).state = .waiting →
    ∃ other, (s.mem a).ctx = .inAwait (some a) other
  framed : ∀ c, some c ∈ s.frames → s.live c = true
  control : s.ControlOk
  ideal : Ideal.Inv s.abs

theorem abs_init : (init : State Fn Arg).abs = Sys.init := by
  have : ∀ k, (init : State Fn Arg).taskAt k = none := by
    intro k
    simp [taskAt, init, addrOf]
  simp only [abs, funext this]
  rfl

theorem inv_init : (init : State Fn Arg).Inv where
  addr := ⟨fun a h => (by cases h), fun k a h => absurd (addrOf_mem h) (List.not_mem_nil),
    fun k r h => by cases h⟩
  count := Nat.zero_le _
  stale a h := absurd h List.not_mem_nil
  queued a h := absurd h List.not_mem_nil
  target a t h := by cases h
  fn a h := by cases h
  ctx a h := by cases h
  inAwait a h := by cases h
  framed c h := absurd h List.not_mem_nil
  control := rfl
  ideal := by rw [abs_init]; exact Ideal.inv_init

namespace Inv

variable {s : State Fn Arg} {a b c : Addr}

/-! ### The ideal invariant at an address -/

theorem task_live (h : s.Inv) (ha : s.live a = true) :
    s.abs.task (s.idOf a) = some ((s.mem a).task s.idOf false) :=
  h.addr.taskAt_live ha

theorem inState_iff (h : s.Inv) (ha : s.live a = true) {st : CoState} :
    s.abs.InState (s.idOf a) st ↔ (s.mem a).state = st := by
  refine ⟨fun hs => hs.eq (h.task_live ha), fun hs => ⟨_, h.task_live ha, hs⟩⟩

theorem awaiting_none (h : s.Inv) (ha : s.live a = true) (hs : (s.mem a).state ≠ .waiting) :
    (s.mem a).awaiting = none :=
  Option.map_eq_none_iff.mp (h.ideal.awaiting_none (h.task_live ha) hs)

theorem nodup_runQueue (h : s.Inv) : s.runQueue.Nodup :=
  List.Nodup.of_map _ h.ideal.nodup

/-- **The run-queue holds the ready coroutines.** -/
theorem mem_runQueue (h : s.Inv) :
    a ∈ s.runQueue ↔ s.live a = true ∧ (s.mem a).state = .ready := by
  constructor
  · intro ha
    have hl := h.queued a ha
    exact ⟨hl, (h.inState_iff hl).mp ((h.ideal.ready _).mp (List.mem_map_of_mem ha))⟩
  · rintro ⟨hl, hs⟩
    obtain ⟨b, hb, e⟩ := List.mem_map.mp ((h.ideal.ready _).mpr ((h.inState_iff hl).mpr hs))
    rwa [h.addr.idOf_inj (h.queued b hb) hl e] at hb

/-- The code being executed is a running coroutine's. -/
theorem running_of_ctl (h : s.Inv) (hc : s.ctl = .user (some c)) :
    s.live c = true ∧ (s.mem c).state = .running := by
  have hl : s.live c = true := by
    have := h.control
    rw [ControlOk, hc] at this
    exact this.1
  refine ⟨hl, (h.inState_iff hl).mp (h.ideal.running_of_ctl ?_)⟩
  simp [abs, hc, Ctl.map]

/-- A body inside a `co_run` of its own is running. -/
theorem running_of_framed (h : s.Inv) (hc : some c ∈ s.frames) : (s.mem c).state = .running := by
  have hm : some (s.idOf c) ∈ s.abs.frames :=
    List.mem_map.mpr ⟨some c, hc, rfl⟩
  exact (h.inState_iff (h.framed c hc)).mp ((h.ideal.running _).mpr (.inr hm))

/-- What a coroutine waits on is not done. -/
theorem target_not_done (h : s.Inv) (ha : s.live a = true) (hb : (s.mem a).awaiting = some b) :
    (s.mem b).state ≠ .done := by
  obtain ⟨u, hu, hd⟩ :=
    h.ideal.target _ _ (s.idOf b) (h.task_live ha) (by simp [Coroutine.task, hb])
  rw [h.task_live (h.target a b ha hb)] at hu
  cases hu
  exact hd

/-- A record that waits is unfreed, also when it is found in `S.all`. -/
theorem live_of_waiting (h : s.Inv) (ha : a ∈ s.all) (hs : (s.mem a).state = .waiting) :
    s.live a = true := by
  by_contra hn
  exact h.stale a ha (by simpa using hn) hs

theorem live_of_mem_waiters (h : s.Inv) (ha : a ∈ s.waiters b) : s.live a = true := by
  obtain ⟨hall, hs, -⟩ := mem_waiters.mp ha
  exact h.live_of_waiting hall hs

/-- **The run-queue has room** for the waiters of any coroutine. -/
theorem room (h : s.Inv) (done : Addr) :
    s.q.size + (s.waiters done).length ≤ s.all.length := by
  have hnd : (s.runQueue ++ s.waiters done).Nodup := by
    refine List.Nodup.append h.nodup_runQueue (s.nodup_waiters done) fun a hq hw => ?_
    have hr := (h.mem_runQueue.mp hq).2
    rw [(mem_waiters.mp hw).2.1] at hr
    cases hr
  have hsub : s.runQueue ++ s.waiters done ⊆ s.all := by
    intro a ha
    rcases List.mem_append.mp ha with hq | hw
    · exact h.addr.mem_all (h.queued a hq)
    · exact (mem_waiters.mp hw).1
  have := (List.subperm_of_subset hnd hsub).length_le
  rwa [List.length_append, runQueue, Support.Ring.length_toList] at this

theorem size_le (h : s.Inv) : s.q.size ≤ s.all.length :=
  (Nat.le_add_right _ _).trans (h.room 0)

theorem lt_queueCap (h : s.Inv) : s.all.length < queueCap :=
  h.count.trans_lt (by decide)

/-- There is room in the run-queue. -/
theorem size_lt (h : s.Inv) : s.q.size < queueCap := h.size_le.trans_lt h.lt_queueCap

/-- What the code on the stack of a body finds. -/
theorem control_body (h : s.Inv) (hc : s.ctl = .user (some c)) :
    s.Holds c s.frames ∨ s.Stranded c := by
  have := h.control
  rw [ControlOk, hc] at this
  exact this.2

/-- What it relies on. -/
theorem holds (h : s.Inv) (ha : s.Attached) (hc : s.ctl = .user (some c)) :
    s.Holds c s.frames := by
  refine (h.control_body hc).resolve_right fun hs => ?_
  have := ha c hc
  rw [hs.1] at this
  cases this

/-- While main executes, no coroutine is running. -/
theorem running_main (h : s.Inv) (hc : s.ctl = .user none) : s.running = none := by
  have := h.control
  rwa [ControlOk, hc] at this

/-- `co_id` names the body being executed, `0` for main. -/
theorem coId_eq (h : s.Inv) (ha : s.Attached) {who : Option Addr} (hc : s.ctl = .user who) :
    s.coId = (who.map s.idOf).getD 0 := by
  cases who with
  | none => simp [coId, h.running_main hc]
  | some c => simp [coId, ha c hc, idOf]

theorem control_loop (h : s.Inv) {who : Option Addr} (hc : s.ctl = .loop who) :
    ∃ rest, s.frames = who :: rest := by
  have := h.control
  rw [ControlOk, hc] at this
  cases who with
  | none => exact this.2
  | some c => exact this.imp fun _ hr => hr.1

/-- What a body's `co_run` finds. -/
theorem control_nested (h : s.Inv) (hc : s.ctl = .loop (some c)) {rest : List (Option Addr)}
    (hf : s.frames = some c :: rest) : s.Holds c rest ∨ s.Stranded c := by
  have := h.control
  rw [ControlOk, hc] at this
  obtain ⟨rest', hf', hr⟩ := this
  rw [hf, List.cons.injEq] at hf'
  rwa [hf'.2]

end Inv

end State

end CCoroutine
