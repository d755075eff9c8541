import CCoroutine.Safety.Nesting
import CCoroutine.Safety.Table
import CCoroutine.Temporal.Fifo
import Mathlib.Data.List.Sort

/-!
# Temporal — Allocator

How far the schedule depends on the addresses the allocator returns.  `wakeup_waiters` wakes in
the order of the slots of `S.all`, and a record at a reused address is found at the slot of its
predecessor, so its coroutine is woken before older ones.

A deterministic program is a strategy: what the code being executed does next is a function of
what has happened so far, in terms of ids (`Follows`).  Two runs of one strategy, with the same
allocations succeeding, go through the same events and the same states, as long as in both the
waiters of a finishing coroutine are found in the order of their creation (`schedule_eq`); without
a reused address they always are (`NoReuse.wakesInOrder`).
-/

namespace CCoroutine
open CCoroutine.Ideal (Sys Ev)
open Support (Run)

/-! ### Deterministic programs -/

/-- A call of the API, with coroutines named by their ids. -/
inductive Req (Fn Arg : Type) where
  | create (fn : Option Fn) (arg : Option Arg) (stackSize : ℕ)
  | free (k : ℕ)
  | yield
  | await (k : ℕ)
  | run
  | state (k : ℕ)
  | id
  | ret
  /-- A turn of the scheduler loop. -/
  | turn
  deriving DecidableEq

/-- The outcome of the allocations, without the addresses. -/
def Alloc.outcome : Alloc → Alloc
  | .callocFails => .callocFails
  | .mallocFails _ => .mallocFails 0
  | .ok _ _ => .ok 0 0

namespace State

variable {Fn Arg : Type}

/-- The call behind a step, in terms of ids. -/
def request (s : State Fn Arg) : Act Fn Arg → Req Fn Arg
  | .create fn arg n _ => .create fn arg n
  | .free co => .free ((co.map s.idOf).getD 0)
  | .yield => .yield
  | .await other => .await ((other.map s.idOf).getD 0)
  | .run => .run
  | .state co => .state ((co.map s.idOf).getD 0)
  | .id => .id
  | .ret => .ret
  | .sched => .turn

/-- The outcome of the allocations of a step. -/
def outcome : Act Fn Arg → Option Alloc
  | .create _ _ _ m => some m.outcome
  | _ => none

end State

/-! ### One step from states that stand for the same system -/

namespace Ideal

variable {Fn Arg : Type} {A B B' : Sys Fn Arg} {e : Ev Fn Arg}

/-- The event determines the step. -/
theorem Step.det (h : Step A e B) (h' : Step A e B') : B = B' := by
  cases h with
  | create fn arg hc => cases h' with | create _ _ _ => rfl
  | createFailed => cases h' with | createFailed => rfl
  | free hc ht hd hf =>
      cases h' with
      | free _ ht' _ _ => rw [ht] at ht'; cases ht'; rfl
  | yield hc ht hf =>
      cases h' with
      | yield _ ht' hf' => rw [ht] at ht'; rw [hf] at hf'; cases ht'; cases hf'; rfl
  | await => cases h' with | await => rfl
  | block hc ht hj hn hf =>
      cases h' with
      | block _ ht' _ _ hf' => rw [ht] at ht'; rw [hf] at hf'; cases ht'; cases hf'; rfl
  | finish hc ht hf hn hw =>
      cases h' with
      | finish _ ht' hf' _ _ => rw [ht] at ht'; rw [hf] at hf'; cases ht'; cases hf'; rfl
  | run => cases h' with | run => rfl
  | runReturn hc hq hf =>
      cases h' with
      | runReturn _ _ hf' => rw [hf] at hf'; cases hf'; rfl
  | sawState => cases h' with | sawState => rfl
  | sawId =>
      generalize he : Ev.sawId _ = e at h'
      cases h' with
      | sawId => rfl
      | _ => cases he
  | resume hc hq ht =>
      generalize he : Ev.resumed _ _ = e at h'
      cases h' with
      | resume _ hq' ht' =>
          rw [hq] at hq'
          cases hq'
          rw [ht] at ht'
          cases ht'
          rfl
      | _ => cases he

end Ideal

namespace State

variable {Fn Arg : Type} {s s₁ s₂ : State Fn Arg} {a a₁ a₂ : Act Fn Arg}

theorem self_eq_abs (s : State Fn Arg) :
    s.self = match s.abs.ctl with | .user (some k) => k | _ => 0 := by
  unfold self abs
  cases s.ctl with
  | user who => cases who <;> rfl
  | loop who => rfl

/-- The state of a handle, read off the ideal system. -/
theorem Inv.state_eq (h : s.Inv) {a : Addr} (ha : s.live a = true) :
    s.abs.stateOf (s.idOf a) = some (s.mem a).state := by
  rw [Sys.stateOf, h.task_live ha]
  rfl

/-- Code of the same owner executes. -/
theorem caller_congr (habs : s₁.abs = s₂.abs) {w₁ w₂ : Option Addr} (hc₁ : s₁.ctl = .user w₁)
    (hc₂ : s₂.ctl = .user w₂) : w₁.map s₁.idOf = w₂.map s₂.idOf := by
  have hctl := congrArg Sys.ctl habs
  rw [abs_ctl_user hc₁, abs_ctl_user hc₂] at hctl
  exact Ctl.user.inj hctl

theorem Inv.state_congr (h₁ : s₁.Inv) (h₂ : s₂.Inv) (habs : s₁.abs = s₂.abs) {x y : Addr}
    (hx : s₁.live x = true) (hy : s₂.live y = true) (hid : s₁.idOf x = s₂.idOf y) :
    (s₁.mem x).state = (s₂.mem y).state := by
  have := h₁.state_eq hx
  rw [habs, hid, h₂.state_eq hy] at this
  exact (Option.some.inj this).symm

/-- The waiters of a finishing coroutine are found in the order of their creation. -/
def WakesInOrder (s : State Fn Arg) : Prop :=
  ∀ c, s.ctl = .user (some c) → ((s.waiters c).map s.idOf).SortedLT

/-- Where no address is registered twice, the waiters are in order: the slot of a coroutine is its
id. -/
theorem Inv.wakesInOrder (h : s.Inv) (hnd : s.all.Nodup) : s.WakesInOrder := by
  intro c hc
  have hslot : ∀ (n : ℕ) (hl : n < s.all.length), s.live s.all[n] = true →
      s.idOf s.all[n] = n + 1 := by
    intro n hl hlive
    have hreg := h.addr.registered _ hlive
    unfold addrOf at hreg
    split at hreg
    · cases hreg
    · next h0 =>
        obtain ⟨hlt, he⟩ := List.getElem?_eq_some_iff.mp hreg
        have := (hnd.getElem_inj_iff).mp he
        omega
  rw [List.sortedLT_iff_pairwise, List.pairwise_map, waiters,
    Support.eraseDups_eq_self (hnd.filter _), List.pairwise_filter, List.pairwise_iff_getElem]
  intro m n hm hn hmn hwm hwn
  have live : ∀ a ∈ s.all, s.waitsOn c a = true → s.live a = true := fun a ha hw =>
    h.live_of_waiting ha (waitsOn_iff.mp hw).1
  rw [hslot m hm (live _ (List.getElem_mem hm) hwm), hslot n hn (live _ (List.getElem_mem hn) hwn)]
  omega

/-- A turn of the loop, read off the ideal system. -/
theorem Inv.event_sched_congr (h₁ : s₁.Inv) (h₂ : s₂.Inv) (habs : s₁.abs = s₂.abs)
    (hl₁ : s₁.Legal .sched) (hl₂ : s₂.Legal .sched) : s₁.event .sched = s₂.event .sched := by
  obtain ⟨who₁, hc₁⟩ := hl₁
  obtain ⟨who₂, hc₂⟩ := hl₂
  have hctl := congrArg Sys.ctl habs
  rw [abs_ctl_loop hc₁, abs_ctl_loop hc₂] at hctl
  have hq : s₁.runQueue.map s₁.idOf = s₂.runQueue.map s₂.idOf := congrArg Sys.queue habs
  cases hq₁ : s₁.runQueue with
  | nil =>
      rw [hq₁] at hq
      have hq₂ : s₂.runQueue = [] := by simpa using hq.symm
      simp only [event, hq₁, hq₂, hc₁, hc₂, Ctl.loop.inj hctl]
  | cons x xs =>
      cases hq₂ : s₂.runQueue with
      | nil => rw [hq₁, hq₂] at hq; cases hq
      | cons y ys =>
          rw [hq₁, hq₂] at hq
          have hid : s₁.idOf x = s₂.idOf y := (List.cons.inj hq).1
          have hx := h₁.task_live (h₁.queued x (by rw [hq₁]; exact List.mem_cons_self))
          have hy := h₂.task_live (h₂.queued y (by rw [hq₂]; exact List.mem_cons_self))
          rw [habs, hid, hy] at hx
          simp only [event, hq₁, hq₂, hid, Option.some.inj hx]

/-- The waiters of the finishing coroutine, in order, are determined by the ideal system. -/
theorem Inv.waiters_congr (h₁ : s₁.Inv) (h₂ : s₂.Inv) (habs : s₁.abs = s₂.abs) {c₁ c₂ : Addr}
    (hc₁ : s₁.ctl = .user (some c₁)) (hc₂ : s₂.ctl = .user (some c₂)) (hw₁ : s₁.WakesInOrder)
    (hw₂ : s₂.WakesInOrder) : (s₁.waiters c₁).map s₁.idOf = (s₂.waiters c₂).map s₂.idOf := by
  have hid : s₁.idOf c₁ = s₂.idOf c₂ := Option.some.inj (caller_congr habs hc₁ hc₂)
  have hmem : ∀ w, w ∈ (s₁.waiters c₁).map s₁.idOf ↔ w ∈ (s₂.waiters c₂).map s₂.idOf := by
    intro w
    rw [h₁.mem_waiters_ids (h₁.running_of_ctl hc₁).1, h₂.mem_waiters_ids (h₂.running_of_ctl hc₂).1,
      habs, hid]
  exact List.Subset.antisymm_of_sortedLT (fun w hw => (hmem w).mp hw)
    (fun w hw => (hmem w).mpr hw) (hw₁ c₁ hc₁) (hw₂ c₂ hc₂)

/-- `co_id` sees the same, also in a stranded body. -/
theorem Inv.coId_congr (h₁ : s₁.Inv) (h₂ : s₂.Inv) (habs : s₁.abs = s₂.abs)
    (hrun : s₁.running = none ↔ s₂.running = none) (hl₁ : s₁.Legal .id) (hl₂ : s₂.Legal .id) :
    s₁.coId = s₂.coId := by
  by_cases hr : s₁.running = none
  · simp [coId, hr, hrun.mp hr]
  · have attached : ∀ {s : State Fn Arg}, s.Inv → s.running ≠ none → s.Attached :=
      fun h hr c hc => (h.control_body hc).elim And.left fun hs => absurd hs.1 hr
    obtain ⟨w₁, hc₁⟩ := hl₁
    obtain ⟨w₂, hc₂⟩ := hl₂
    rw [h₁.coId_eq (attached h₁ hr) hc₁, h₂.coId_eq (attached h₂ (hr ∘ hrun.mpr)) hc₂,
      caller_congr habs hc₁ hc₂]

/-- **The same call does the same thing** in two states that stand for the same system, when
their waiters are in order. -/
theorem Inv.event_congr (h₁ : s₁.Inv) (h₂ : s₂.Inv) (habs : s₁.abs = s₂.abs)
    (hrun : s₁.running = none ↔ s₂.running = none) (hl₁ : s₁.Legal a₁) (hl₂ : s₂.Legal a₂)
    (hreq : s₁.request a₁ = s₂.request a₂)
    (hout : outcome a₁ = outcome a₂) (hw₁ : a₁ = .ret → s₁.WakesInOrder)
    (hw₂ : a₂ = .ret → s₂.WakesInOrder) : s₁.event a₁ = s₂.event a₂ := by
  have hself : s₁.self = s₂.self := by rw [self_eq_abs, self_eq_abs, habs]
  cases a₁ with
  | create fn arg n m =>
      cases a₂ with
      | create fn' arg' n' m' =>
          obtain ⟨rfl, rfl, -⟩ : fn = fn' ∧ arg = arg' ∧ n = n' := by simpa [request] using hreq
          have hcount : s₁.all.length = s₂.all.length := congrArg Sys.count habs
          cases m <;> cases m' <;> simp_all [event, outcome, Alloc.outcome]
      | _ => simp [request] at hreq
  | free co =>
      cases a₂ with
      | free co' => simpa [event, request] using hreq
      | _ => simp [request] at hreq
  | yield =>
      cases a₂ with
      | yield => simp [event, hself]
      | _ => simp [request] at hreq
  | await o =>
      cases a₂ with
      | await o' =>
          obtain ⟨-, x, rfl, hx⟩ := hl₁
          obtain ⟨-, y, rfl, hy⟩ := hl₂
          have hid : s₁.idOf x = s₂.idOf y := by simpa [request] using hreq
          simp [event, hself, hid, h₁.state_congr h₂ habs hx hy hid]
      | _ => simp [request] at hreq
  | run =>
      cases a₂ with
      | run =>
          obtain ⟨w₁, hc₁⟩ := hl₁
          obtain ⟨w₂, hc₂⟩ := hl₂
          simp [event, hc₁, hc₂, caller_congr habs hc₁ hc₂]
      | _ => simp [request] at hreq
  | state o =>
      cases a₂ with
      | state o' =>
          obtain ⟨-, x, rfl, hx⟩ := hl₁
          obtain ⟨-, y, rfl, hy⟩ := hl₂
          have hid : s₁.idOf x = s₂.idOf y := by simpa [request] using hreq
          simp [event, hid, h₁.state_congr h₂ habs hx hy hid]
      | _ => simp [request] at hreq
  | id =>
      cases a₂ with
      | id => exact congrArg Ev.sawId (h₁.coId_congr h₂ habs hrun hl₁ hl₂)
      | _ => simp [request] at hreq
  | ret =>
      cases a₂ with
      | ret =>
          obtain ⟨c₁, hc₁⟩ := hl₁
          obtain ⟨c₂, hc₂⟩ := hl₂
          have hws := h₁.waiters_congr h₂ habs hc₁ hc₂ (hw₁ rfl) (hw₂ rfl)
          simp [event, hself, hc₁, hc₂, hws]
      | _ => simp [request] at hreq
  | sched =>
      cases a₂ with
      | sched => exact h₁.event_sched_congr h₂ habs hl₁ hl₂
      | _ => simp [request] at hreq

/-- Only `co_id` has the event of `co_id`. -/
theorem event_id_congr (hev : s₁.event a₁ = s₂.event a₂) (ha : a₁ = .id ∨ a₂ = .id) :
    a₁ = .id ∧ a₂ = .id := by
  rcases ha with rfl | rfl
  · exact ⟨rfl, causes_of_event hev.symm⟩
  · exact ⟨causes_of_event hev, rfl⟩

/-- The same event leads to the same system. -/
theorem Inv.abs_congr (h₁ : s₁.Inv) (h₂ : s₂.Inv) (habs : s₁.abs = s₂.abs)
    {s₁' s₂' : State Fn Arg} (hs₁ : Step s₁ a₁ s₁') (hs₂ : Step s₂ a₂ s₂')
    (hev : s₁.event a₁ = s₂.event a₂) : s₁'.abs = s₂'.abs := by
  by_cases ha : a₁ = .id ∨ a₂ = .id
  · obtain ⟨rfl, rfl⟩ := event_id_congr hev ha
    rw [step_id hs₁, step_id hs₂, habs]
  · have hstep₁ := (h₁.refines hs₁ fun e => absurd (.inl e) ha).1
    have hstep₂ := (h₂.refines hs₂ fun e => absurd (.inr e) ha).1
    rw [habs, hev] at hstep₁
    exact hstep₁.det hstep₂

end State

/-! ### Two runs of one program -/

namespace NestedExecution

variable {Fn Arg : Type}

/-- What happens in step `i`. -/
def event (r : NestedExecution Fn Arg) (i : ℕ) : Ev Fn Arg := (r.st i).event (r.act i)

/-- What has happened before step `i`. -/
def history (r : NestedExecution Fn Arg) (i : ℕ) : List (Ev Fn Arg) := (List.range i).map r.event

/-- The ids `co_run` has resumed before step `i`, in order. -/
def resumed (r : NestedExecution Fn Arg) (i : ℕ) : List ℕ := (r.history i).flatMap Ev.resumedIds

/-- The run is one of the program `σ`: what its code calls is a function of the history. -/
def Follows (σ : List (Ev Fn Arg) → Req Fn Arg) (r : NestedExecution Fn Arg) : Prop :=
  ∀ i : ℕ, (i : ℕ∞) < r.len → ∀ who, (r.st i).ctl = .user who →
    (r.st i).request (r.act i) = σ (r.history i)

/-- The same allocations succeed. -/
def SameOutcomes (r₁ r₂ : NestedExecution Fn Arg) : Prop :=
  ∀ i : ℕ, (i : ℕ∞) < r₁.len → (i : ℕ∞) < r₂.len →
    State.outcome (r₁.act i) = State.outcome (r₂.act i)

/-- Whenever a coroutine finishes, its waiters are found in the order of their creation. -/
def WakesInOrder (r : NestedExecution Fn Arg) : Prop :=
  ∀ i : ℕ, (i : ℕ∞) < r.len → r.act i = .ret → (r.st i).WakesInOrder

theorem history_succ (r : NestedExecution Fn Arg) (i : ℕ) :
    r.history (i + 1) = r.history i ++ [r.event i] := by
  simp [history, List.range_succ]

/-- The code calls the same function in both runs, or both are in a scheduler loop. -/
theorem request_congr {σ : List (Ev Fn Arg) → Req Fn Arg} {r₁ r₂ : NestedExecution Fn Arg}
    (h₁ : r₁.Follows σ) (h₂ : r₂.Follows σ) {i : ℕ} (hi₁ : (i : ℕ∞) < r₁.len)
    (hi₂ : (i : ℕ∞) < r₂.len) (habs : (r₁.st i).abs = (r₂.st i).abs)
    (hhist : r₁.history i = r₂.history i) :
    (r₁.st i).request (r₁.act i) = (r₂.st i).request (r₂.act i) := by
  have hctl := congrArg Sys.ctl habs
  cases hc₁ : (r₁.st i).ctl with
  | user w₁ =>
      cases hc₂ : (r₂.st i).ctl with
      | user w₂ => rw [h₁ i hi₁ w₁ hc₁, h₂ i hi₂ w₂ hc₂, hhist]
      | loop w₂ =>
          rw [State.abs_ctl_user hc₁, State.abs_ctl_loop hc₂] at hctl
          cases hctl
  | loop w₁ =>
      cases hc₂ : (r₂.st i).ctl with
      | user w₂ =>
          rw [State.abs_ctl_loop hc₁, State.abs_ctl_user hc₂] at hctl
          cases hctl
      | loop w₂ => rw [act_of_loop hi₁ hc₁, act_of_loop hi₂ hc₂]; rfl

/-- Two runs of one program stay in step. -/
theorem lockstep {σ : List (Ev Fn Arg) → Req Fn Arg} {r₁ r₂ : NestedExecution Fn Arg}
    (h₁ : r₁.Follows σ) (h₂ : r₂.Follows σ) (ho : r₁.SameOutcomes r₂) (hw₁ : r₁.WakesInOrder)
    (hw₂ : r₂.WakesInOrder) {i : ℕ} (hi₁ : (i : ℕ∞) ≤ r₁.len) (hi₂ : (i : ℕ∞) ≤ r₂.len) :
    (r₁.st i).abs = (r₂.st i).abs ∧ ((r₁.st i).running = none ↔ (r₂.st i).running = none) ∧
      r₁.history i = r₂.history i := by
  induction i with
  | zero => rw [r₁.start, r₂.start]; exact ⟨rfl, Iff.rfl, rfl⟩
  | succ i ih =>
      have hlt₁ := Run.lt_of_succ_le hi₁
      have hlt₂ := Run.lt_of_succ_le hi₂
      obtain ⟨habs, hrun, hhist⟩ := ih hlt₁.le hlt₂.le
      have hreq := request_congr h₁ h₂ hlt₁ hlt₂ habs hhist
      have hev : (r₁.st i).event (r₁.act i) = (r₂.st i).event (r₂.act i) :=
        (inv hlt₁.le).event_congr (inv hlt₂.le) habs hrun (r₁.next i hlt₁).1 (r₂.next i hlt₂).1
          hreq (ho i hlt₁ hlt₂) (hw₁ i hlt₁) (hw₂ i hlt₂)
      refine ⟨?_, ?_, ?_⟩
      · exact (inv hlt₁.le).abs_congr (inv hlt₂.le) habs (r₁.next i hlt₁) (r₂.next i hlt₂) hev
      · rw [(inv hlt₁.le).running_none_iff (r₁.next i hlt₁),
          (inv hlt₂.le).running_none_iff (r₂.next i hlt₂), hev, propext hrun]
      · rw [history_succ, history_succ, hhist, show r₁.event i = r₂.event i from hev]

/-- **The schedule does not depend on the allocator**, as long as the waiters of a finishing
coroutine are found in the order of their creation: two runs of one program resume the same ids in
the same order, and coroutines with equal ids have equal states at every step. -/
theorem schedule_eq (σ : List (Ev Fn Arg) → Req Fn Arg) {r₁ r₂ : NestedExecution Fn Arg}
    (h₁ : r₁.Follows σ) (h₂ : r₂.Follows σ) (ho : r₁.SameOutcomes r₂) (hw₁ : r₁.WakesInOrder)
    (hw₂ : r₂.WakesInOrder) :
    ∀ i : ℕ, (i : ℕ∞) ≤ r₁.len → (i : ℕ∞) ≤ r₂.len →
      r₁.resumed i = r₂.resumed i ∧
      ∀ k, (r₁.st i).abs.stateOf k = (r₂.st i).abs.stateOf k := by
  intro i hi₁ hi₂
  obtain ⟨habs, -, hhist⟩ := lockstep h₁ h₂ ho hw₁ hw₂ hi₁ hi₂
  exact ⟨by rw [resumed, resumed, hhist], fun k => by rw [habs]⟩

/-! ### Without a reused address -/

/-- No address that `S.all` holds is returned again. -/
def NoReuse (r : NestedExecution Fn Arg) : Prop :=
  ∀ i : ℕ, (i : ℕ∞) < r.len → ∀ co, (r.act i).newAddr = some co → co ∉ (r.st i).all

theorem NoReuse.nodup_all {r : NestedExecution Fn Arg} (h : r.NoReuse) {i : ℕ}
    (hi : (i : ℕ∞) ≤ r.len) : (r.st i).all.Nodup := by
  induction i with
  | zero => rw [r.start]; exact List.nodup_nil
  | succ i ih =>
      have hlt := Run.lt_of_succ_le hi
      have hnd := ih hlt.le
      rcases State.step_table (r.next i hlt).2 with
        ⟨-, hall, -⟩ | ⟨co, hco, hall, -⟩ | ⟨co, -, hall, -⟩
      · rwa [hall]
      · rw [hall]
        exact List.Nodup.append hnd (List.nodup_singleton _)
          (List.disjoint_singleton.mpr (h i hlt co hco))
      · rwa [hall]

/-- **Without a reused address the waiters are always in order.** -/
theorem NoReuse.wakesInOrder {r : NestedExecution Fn Arg} (h : r.NoReuse) : r.WakesInOrder :=
  fun _ hi _ => (inv hi.le).wakesInOrder (h.nodup_all hi.le)

/-! ### Concrete runs -/

/-- The program that makes the calls of `script`, one in each step. -/
def scripted (script : List (Req Fn Arg)) (h : List (Ev Fn Arg)) : Req Fn Arg :=
  script.getD h.length .turn

/-- The run through the steps `as`. -/
def runOf (as : List (Act Fn Arg))
    (h : (Support.exec State.next (State.init : State Fn Arg) as).isSome = true) :
    NestedExecution Fn Arg :=
  .ofExec (fun _ _ _ => State.step_of_next) State.init as .sched h

section Concrete

variable {as bs : List (Act Fn Arg)}
  {h : (Support.exec State.next (State.init : State Fn Arg) as).isSome = true}
  {h' : (Support.exec State.next (State.init : State Fn Arg) bs).isSome = true}

theorem runOf_lt {i : ℕ} (hi : (i : ℕ∞) < (runOf as h).len) : i < as.length := by
  exact_mod_cast (show (i : ℕ∞) < (as.length : ℕ∞) from hi)

theorem follows_scripted {script : List (Req Fn Arg)}
    (hs : ∀ i < as.length, ((runOf as h).st i).request ((runOf as h).act i) = script.getD i .turn) :
    (runOf as h).Follows (scripted script) := by
  intro i hi who _
  rw [hs i (runOf_lt hi), scripted, history, List.length_map, List.length_range]

theorem sameOutcomes_of (hs : ∀ i < as.length, State.outcome ((runOf as h).act i) =
    State.outcome ((runOf bs h').act i)) : (runOf as h).SameOutcomes (runOf bs h') :=
  fun i hi _ => hs i (runOf_lt hi)

end Concrete

/-- A target that yields once and two coroutines that await it, at the addresses `t`, `u`, `v`;
control ends in the first of the two. -/
def twoWaiters (t u v : Addr) : List (Act Unit Unit) :=
  [.create (some ()) none 0 (.ok t 1), .create (some ()) none 0 (.ok u 2),
    .create (some ()) none 0 (.ok v 3), .run, .sched, .yield, .sched, .await (some t), .sched,
    .await (some t), .sched, .ret, .sched]

def twoWaitersScript : List (Req Unit Unit) :=
  [.create (some ()) none 0, .create (some ()) none 0, .create (some ()) none 0, .run, .turn,
    .yield, .turn, .await 1, .turn, .await 1, .turn, .ret, .turn]

theorem schedule_eq_twoWaiters : ∃ r₁ r₂ : NestedExecution Unit Unit,
    (r₁.st 13).ctl = .user (some 20) ∧ (r₂.st 13).ctl = .user (some 50) ∧
      r₁.resumed 13 = r₂.resumed 13 := by
  let r₁ := runOf (twoWaiters 10 20 30) (by decide)
  let r₂ := runOf (twoWaiters 40 50 60) (by decide)
  have fresh₁ : r₁.NoReuse := fun i hi co hco =>
    (by decide : ∀ i < 13, ∀ co ∈ (r₁.act i).newAddr, co ∉ (r₁.st i).all) i (runOf_lt hi) co hco
  have fresh₂ : r₂.NoReuse := fun i hi co hco =>
    (by decide : ∀ i < 13, ∀ co ∈ (r₂.act i).newAddr, co ∉ (r₂.st i).all) i (runOf_lt hi) co hco
  have hlen : ((13 : ℕ) : ℕ∞) ≤ r₁.len ∧ ((13 : ℕ) : ℕ∞) ≤ r₂.len := ⟨le_rfl, le_rfl⟩
  exact ⟨r₁, r₂, rfl, rfl, (schedule_eq (scripted twoWaitersScript)
    (follows_scripted (by decide)) (follows_scripted (by decide)) (sameOutcomes_of (by decide))
    fresh₁.wakesInOrder fresh₂.wakesInOrder 13 hlen.1 hlen.2).1⟩

/-- A coroutine finishes and is freed; then a target that yields once and two coroutines that
await it are created, the second of them at `v`. -/
def waiterAt (v : Addr) : List (Act Unit Unit) :=
  [.create (some ()) none 0 (.ok 10 1), .run, .sched, .ret, .sched, .free (some 10),
    .create (some ()) none 0 (.ok 20 2), .create (some ()) none 0 (.ok 30 3),
    .create (some ()) none 0 (.ok v 4), .run, .sched, .yield, .sched, .await (some 20), .sched,
    .await (some 20), .sched, .ret, .sched]

def waiterScript : List (Req Unit Unit) :=
  [.create (some ()) none 0, .run, .turn, .ret, .turn, .free 1, .create (some ()) none 0,
    .create (some ()) none 0, .create (some ()) none 0, .run, .turn, .yield, .turn, .await 2,
    .turn, .await 2, .turn, .ret, .turn]

/-- The second waiter is woken first when it sits at the freed coroutine's address, and last
otherwise. -/
theorem schedule_ne_waiterAt : ∃ (σ : List (Ev Unit Unit) → Req Unit Unit)
    (r₁ r₂ : NestedExecution Unit Unit), r₁.Follows σ ∧ r₂.Follows σ ∧ r₁.SameOutcomes r₂ ∧
      r₁.len = r₂.len ∧ ((19 : ℕ) : ℕ∞) ≤ r₁.len ∧
      r₁.resumed 19 = [1, 2, 3, 4, 2, 4] ∧ r₂.resumed 19 = [1, 2, 3, 4, 2, 3] :=
  ⟨scripted waiterScript, runOf (waiterAt 10) (by decide), runOf (waiterAt 40) (by decide),
    follows_scripted (by decide), follows_scripted (by decide), sameOutcomes_of (by decide),
    rfl, le_rfl, by decide, by decide⟩

end NestedExecution

end CCoroutine
