import CCoroutine.Scheduler.Queue
import CCoroutine.Support.Queues
import CCoroutine.Support.Runs

/-!
# Scheduler — Fields

The run-queue as `src/coroutine.c` has it: an array of pointers and three integers of type `int`,
all zero at the start, with nothing said about how they fit together.  A full and an empty array
both have `q_head = q_tail`.

`q_push` and `q_pop` on these fields do what they do on the run-queue of `State` (`Holds.push`,
`Holds.pop`), and that one is the plain list.  So through any number of calls, and of turns around
the array, the indices stay in range and the pops return what those of a list return
(`refines_fifo`).
-/

namespace CCoroutine
open Support (Ring Queue QueueOp toOption_eq_some)

/-- `S.queue`, `S.q_head`, `S.q_tail` and `S.q_size`.  A slot holds a pointer, `none` for `NULL`.
None of the three ever leaves the range from `0` to `QUEUE_CAP`, so they do not overflow. -/
structure QueueFields where
  queue : ℤ → Option Addr
  qHead : ℤ
  qTail : ℤ
  qSize : ℤ

namespace QueueFields

def zero : QueueFields where
  queue := fun _ => none
  qHead := 0
  qTail := 0
  qSize := 0

def qPush (v : QueueFields) (co : Addr) : Except Fault QueueFields :=
  if v.qSize < queueCap then
    .ok { v with
      queue := Function.update v.queue v.qTail (some co)
      qTail := (v.qTail + 1).tmod queueCap
      qSize := v.qSize + 1 }
  else .error .queueOverflow

def qPop (v : QueueFields) : Option Addr × QueueFields :=
  if v.qSize = 0 then (none, v)
  else (v.queue v.qHead, { v with
    qHead := (v.qHead + 1).tmod queueCap
    qSize := v.qSize - 1 })

/-- The two functions, as the operations of a queue. -/
def calls : Queue QueueFields Addr where
  push v co := (v.qPush co).toOption
  pop := qPop

end QueueFields

/-! ### The run-queue of the state -/

namespace State

variable {Fn Arg : Type} {s s' : State Fn Arg} {ops : List (QueueOp Addr)} {os : List (Option Addr)}

/-- The same, on the scheduler state. -/
def queueCalls (Fn Arg : Type) : Queue (State Fn Arg) Addr where
  push s co := (s.qPush co).toOption
  pop := qPop

/-- **The run-queue behaves as a list.** -/
theorem run_fifo (hrun : (queueCalls Fn Arg).run s ops = some (os, s')) :
    (Queue.fifo Addr).run s.runQueue ops = some (os, s'.runQueue) := by
  have hpush : ∀ (s : State Fn Arg) l co s', s.runQueue = l →
      (queueCalls Fn Arg).push s co = some s' →
      ∃ l', (Queue.fifo Addr).push l co = some l' ∧ s'.runQueue = l' := by
    rintro s _ co s' rfl hp
    obtain ⟨hq, rfl⟩ := qPush_inv (toOption_eq_some.mp hp)
    exact ⟨_, rfl, s.q.toList_push co hq⟩
  have hpop : ∀ (s : State Fn Arg) l, s.runQueue = l →
      s.qPop.1 = l.head? ∧ s.qPop.2.runQueue = l.tail := by
    intro s l hl
    cases l with
    | nil =>
        rw [qPop_nil hl]
        exact ⟨rfl, hl⟩
    | cons co rest =>
        obtain ⟨q', hp, hq'⟩ := qPop_cons hl
        rw [hp]
        exact ⟨rfl, hq'⟩
  obtain ⟨l, hl, rfl⟩ := Queue.run_simulates hpush hpop rfl hrun
  exact hl

end State

/-! ### The fields and the run-queue -/

namespace QueueFields

/-- The fields hold the run-queue `r`.  Slots outside it may hold anything. -/
structure Holds (v : QueueFields) (r : Ring Addr queueCap) : Prop where
  head : v.qHead = r.head
  tail : v.qTail = r.tail
  size : v.qSize = r.size
  slot : ∀ i < r.size, v.queue ((r.head + i) % queueCap : ℕ) =
    some (r.slots ((r.head + i) % queueCap))

/-- An index moves on by one slot. -/
theorem tmod_natCast_succ (n : ℕ) : ((n : ℤ) + 1).tmod queueCap = ((n + 1) % queueCap : ℕ) :=
  rfl

variable {v v' : QueueFields} {r : Ring Addr queueCap} {co : Addr}

theorem holds_zero {Fn Arg : Type} : zero.Holds (State.init : State Fn Arg).q :=
  ⟨rfl, rfl, rfl, fun i hi => absurd hi (Nat.not_lt_zero i)⟩

namespace Holds

theorem push (h : v.Holds r) (co : Addr) (hr : r.size < queueCap) :
    ∃ v', v.qPush co = .ok v' ∧ v'.Holds (r.push co hr) := by
  have hv : v.qSize < queueCap := by
    rw [h.size]
    exact_mod_cast hr
  rw [qPush, if_pos hv]
  refine ⟨_, rfl, h.head, ?_, ?_, fun i hi => ?_⟩
  · rw [h.tail]
    exact tmod_natCast_succ r.tail
  · rw [h.size]
    rfl
  · -- the slot at the tail is written on both sides
    simp only [Ring.push, h.tail]
    by_cases e : (r.head + i) % queueCap = r.tail
    · rw [e, Function.update_self, Function.update_self]
    · have hi' : i < r.size := by
        refine lt_of_le_of_ne (Nat.lt_succ_iff.mp hi) fun hs => e ?_
        rw [hs, r.tail_eq]
      have e' : (((r.head + i) % queueCap : ℕ) : ℤ) ≠ r.tail := by exact_mod_cast e
      rw [Function.update_of_ne e, Function.update_of_ne e', h.slot i hi']

theorem pop (h : v.Holds r) : v.qPop.1 = r.pop.1 ∧ v.qPop.2.Holds r.pop.2 := by
  by_cases hs : r.size = 0
  · have hv : v.qSize = 0 := by rw [h.size, hs]; rfl
    rw [qPop, if_pos hv, Ring.pop, dif_pos hs]
    exact ⟨rfl, h⟩
  · have hv : v.qSize ≠ 0 := by
      rw [h.size]
      exact_mod_cast hs
    rw [qPop, if_neg hv, Ring.pop, dif_neg hs]
    have hfirst := h.slot 0 (Nat.pos_of_ne_zero hs)
    rw [Nat.add_zero, Nat.mod_eq_of_lt r.head_lt, ← h.head] at hfirst
    refine ⟨hfirst, ?_, h.tail, ?_, fun i hi => ?_⟩
    · rw [h.head]
      exact tmod_natCast_succ r.head
    · simp only [h.size]
      omega
    · -- the window now starts one slot further on
      have hi' : i < r.size - 1 := hi
      have hslot := h.slot (i + 1) (by omega)
      simp only [Nat.mod_add_mod, Nat.add_assoc, Nat.add_comm 1 i]
      exact hslot

/-- The indices are in range, and apart by the number of entries. -/
theorem indices (h : v.Holds r) :
    (0 ≤ v.qHead ∧ v.qHead < queueCap) ∧ (0 ≤ v.qTail ∧ v.qTail < queueCap) ∧
      v.qTail = (v.qHead + v.qSize) % queueCap := by
  have htail : r.tail < queueCap := by
    rw [r.tail_eq]
    exact Nat.mod_lt _ (Nat.zero_lt_of_lt r.head_lt)
  rw [h.head, h.tail, h.size]
  refine ⟨⟨Int.natCast_nonneg _, ?_⟩, ⟨Int.natCast_nonneg _, ?_⟩, ?_⟩
  · exact_mod_cast r.head_lt
  · exact_mod_cast htail
  · exact_mod_cast r.tail_eq

/-- The entries, from the head on. -/
theorem entry (h : v.Holds r) {i : ℕ} (hi : i < r.toList.length) :
    v.queue ((v.qHead + i) % queueCap) = r.toList[i]? := by
  have hlt : i < r.size := r.length_toList ▸ hi
  have hslot := h.slot i hlt
  rw [h.head]
  simpa [Ring.toList, hlt] using hslot

end Holds

/-! ### Runs -/

variable {Fn Arg : Type} {ops : List (QueueOp Addr)} {os : List (Option Addr)}

/-- What is pushed fits. -/
theorem qPush_lt (h : v.qPush co = .ok v') : v.qSize < queueCap := by
  unfold qPush at h
  split at h
  · assumption
  · cases h

/-- **The fields behave as the run-queue that they hold.** -/
theorem run_queueCalls {s : State Fn Arg} (h : v.Holds s.q)
    (hrun : calls.run v ops = some (os, v')) :
    ∃ s', (State.queueCalls Fn Arg).run s ops = some (os, s') ∧ v'.Holds s'.q := by
  have hpush : ∀ v (s : State Fn Arg) co v', v.Holds s.q → calls.push v co = some v' →
      ∃ s', (State.queueCalls Fn Arg).push s co = some s' ∧ v'.Holds s'.q := by
    intro v s co v' h hp
    have hv : v.qPush co = .ok v' := toOption_eq_some.mp hp
    have hlt : s.q.size < queueCap := by
      have := qPush_lt hv
      rw [h.size] at this
      exact_mod_cast this
    obtain ⟨w, hw, hholds⟩ := h.push co hlt
    obtain rfl : v' = w := Except.ok.inj (hv.symm.trans hw)
    exact ⟨_, toOption_eq_some.mpr (s.qPush_of_lt co hlt), hholds⟩
  exact Queue.run_simulates hpush (fun v s h => h.pop) h hrun

/-- Where a run leads, the fields hold the list that the same calls lead to. -/
theorem exists_holds (hrun : calls.run zero ops = some (os, v)) :
    ∃ r : Ring Addr queueCap, v.Holds r ∧ (Queue.fifo Addr).run [] ops = some (os, r.toList) := by
  obtain ⟨s, hs, hholds⟩ := run_queueCalls (s := (State.init : State Unit Unit)) holds_zero hrun
  exact ⟨s.q, hholds, State.run_fifo hs⟩

/-- **The ring buffer is a FIFO list.**  For any sequence of calls from the start, none of them a
`q_push` with `q_size = QUEUE_CAP`:

* no call fails, and the pops return what those of the plain list return: `NULL` when it is empty,
  and its first entry otherwise;
* the indices are in range, with `q_size` entries from the one to the other, and these are the
  entries of the list;
* what was pushed has been popped or is in the list, in the order of the pushes. -/
theorem refines_fifo (ops : List (QueueOp Addr))
    (hroom : ∀ l co r, ops = l ++ .push co :: r → ∀ os v, calls.run zero l = some (os, v) →
      v.qSize ≠ queueCap) :
    ∃ os v l, calls.run zero ops = some (os, v) ∧ (Queue.fifo Addr).run [] ops = some (os, l) ∧
      (0 ≤ v.qHead ∧ v.qHead < queueCap) ∧ (0 ≤ v.qTail ∧ v.qTail < queueCap) ∧
      v.qTail = (v.qHead + v.qSize) % queueCap ∧ v.qSize = l.length ∧ v.qSize ≤ queueCap ∧
      (∀ i < l.length, v.queue ((v.qHead + (i : ℕ)) % queueCap) = l[i]?) ∧
      QueueOp.pushed ops = os.reduceOption ++ l := by
  have hdefined : ∃ os v, calls.run zero ops = some (os, v) := by
    refine Queue.exists_run fun l co r e os v hl hnone => ?_
    obtain ⟨q, hq, -⟩ := exists_holds hl
    have hlt : q.size < queueCap := by
      refine lt_of_le_of_ne q.size_le fun hfull => hroom l co r e os v hl ?_
      rw [hq.size, hfull]
    obtain ⟨v', hv', -⟩ := hq.push co hlt
    cases hnone.symm.trans (toOption_eq_some.mpr hv')
  obtain ⟨os, v, hrun⟩ := hdefined
  obtain ⟨q, hq, hfifo⟩ := exists_holds hrun
  obtain ⟨hhead, htail, hsum⟩ := hq.indices
  refine ⟨os, v, q.toList, hrun, hfifo, hhead, htail, hsum, ?_, ?_, fun i hi => hq.entry hi, ?_⟩
  · rw [hq.size, q.length_toList]
  · rw [hq.size]
    exact_mod_cast q.size_le
  · exact Queue.fifo_conserves hfifo

/-- Three pushes, and one pop more than that. -/
def threePushes : List (QueueOp Addr) :=
  [.push 10, .push 20, .pop, .push 30, .pop, .pop, .pop]

theorem threePushes_room (l : List (QueueOp Addr)) (co : Addr) (r : List (QueueOp Addr))
    (e : threePushes = l ++ .push co :: r) (os : List (Option Addr)) (v : QueueFields)
    (hl : calls.run zero l = some (os, v)) : v.qSize ≠ queueCap := by
  have hroom : ∀ n < 7, ∀ p ∈ calls.run zero (threePushes.take n), p.2.qSize ≠ queueCap := by
    decide
  have hlen : l.length < 7 := by
    have := congrArg List.length e
    rw [List.length_append, List.length_cons, show threePushes.length = 7 from rfl] at this
    omega
  have htake : threePushes.take l.length = l := by rw [e, List.take_left]
  exact hroom l.length hlen (os, v) (htake.symm ▸ hl)

theorem refines_fifo_threePushes :
    ∃ v, calls.run zero threePushes = some ([some 10, some 20, some 30, none], v) ∧
      v.qTail = v.qHead % queueCap ∧ v.qSize = 0 := by
  obtain ⟨os, v, l, hrun, hfifo, -, -, htail, hsize, -⟩ := refines_fifo threePushes threePushes_room
  cases hfifo
  have hsize : v.qSize = 0 := hsize
  rw [hsize, add_zero] at htail
  exact ⟨v, hrun, htail, hsize⟩

end QueueFields

end CCoroutine
