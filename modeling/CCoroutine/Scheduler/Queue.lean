import CCoroutine.Scheduler.Definitions
import CCoroutine.Support.Lists

/-!
# Scheduler — Queue

What `q_push`, `q_pop` and `wakeup_waiters` do to the run-queue, read as a list (`runQueue`).

`wakeup_waiters(done)` scans `S.all`, which may hold one pointer several times (after an address
is reused), and its test reads the fields it has just written.  `wakeupWaiters_eq` gives its
effect for every table: the records that wait on `done` (`waiters`: in the order of their first
slot, each once) become ready and go to the tail of the run-queue, and nothing else changes.
-/

namespace CCoroutine
open Support (Ring)

/-- The record after it has been woken. -/
def Coroutine.woken {Fn Arg : Type} (r : Coroutine Fn Arg) : Coroutine Fn Arg :=
  { r with state := .ready, awaiting := none }

namespace State

variable {Fn Arg : Type}

theorem qPush_of_lt (s : State Fn Arg) (co : Addr) (h : s.q.size < queueCap) :
    s.qPush co = .ok { s with q := s.q.push co h } := by
  rw [qPush, dif_pos h]

theorem qPush_inv {s s' : State Fn Arg} {co : Addr} (h : s.qPush co = .ok s') :
    ∃ hq, s' = { s with q := s.q.push co hq } := by
  unfold qPush at h
  split at h <;> cases h
  exact ⟨_, rfl⟩

theorem qPop_nil {s : State Fn Arg} (h : s.runQueue = []) : s.qPop = (none, s) := by
  rw [qPop, s.q.pop_eq_none h]

theorem qPop_cons {s : State Fn Arg} {co : Addr} {rest : List Addr}
    (h : s.runQueue = co :: rest) :
    ∃ q', s.qPop = (some co, { s with q := q' }) ∧ q'.toList = rest := by
  obtain ⟨q', hq, hr⟩ := s.q.pop_cons h
  exact ⟨q', by rw [qPop, hq], hr⟩

/-! ### `wakeup_waiters` -/

/-- The test of `wakeup_waiters` on one record. -/
def waitsOn (s : State Fn Arg) (done co : Addr) : Bool :=
  (s.mem co).state = .waiting ∧ (s.mem co).awaiting = some done

/-- The coroutines that wait on `done`, in the order of their first slot in `S.all`. -/
def waiters (s : State Fn Arg) (done : Addr) : List Addr :=
  (s.all.filter (s.waitsOn done)).eraseDups

/-- The memory with the records at `ws` woken. -/
def wokenMem (s : State Fn Arg) (ws : List Addr) (a : Addr) : Coroutine Fn Arg :=
  if a ∈ ws then (s.mem a).woken else s.mem a

theorem waitsOn_iff {s : State Fn Arg} {done co : Addr} :
    s.waitsOn done co = true ↔
      (s.mem co).state = .waiting ∧ (s.mem co).awaiting = some done := by
  simp [waitsOn]

theorem mem_waiters {s : State Fn Arg} {done co : Addr} :
    co ∈ s.waiters done ↔ co ∈ s.all ∧ (s.mem co).state = .waiting ∧
      (s.mem co).awaiting = some done := by
  rw [waiters, List.mem_eraseDups, List.mem_filter, waitsOn_iff]

theorem nodup_waiters (s : State Fn Arg) (done : Addr) : (s.waiters done).Nodup :=
  Support.nodup_eraseDups _

/-- **The wakeup loop.**  Over the slots `l` it wakes the records of `l` that wait on `done`, in
the order of their first slot, and appends them to the run-queue. -/
theorem wakeupLoop_eq (done : Addr) (l : List Addr) :
    ∀ s : State Fn Arg, s.q.size + (l.filter (s.waitsOn done)).eraseDups.length ≤ queueCap →
      ∃ q', wakeupLoop done l s = .ok { s with
          mem := s.wokenMem (l.filter (s.waitsOn done)).eraseDups, q := q' } ∧
        q'.toList = s.runQueue ++ (l.filter (s.waitsOn done)).eraseDups := by
  induction l with
  | nil =>
      intro s _
      exact ⟨s.q, rfl, (List.append_nil _).symm⟩
  | cons co rest ih =>
      intro s hroom
      by_cases hw : s.waitsOn done co = true
      · rw [List.filter_cons_of_pos hw, List.eraseDups_cons] at hroom ⊢
        rw [List.length_cons] at hroom
        have hlt : s.q.size < queueCap := by omega
        -- after the push `co` is ready, so a later slot that holds it fails the test
        let s₁ : State Fn Arg := { s.modCo co Coroutine.woken with q := s.q.push co hlt }
        have hf : rest.filter (s₁.waitsOn done) =
            (rest.filter (s.waitsOn done)).filter fun b => !b == co := by
          rw [List.filter_filter]
          refine List.filter_congr fun b _ => ?_
          by_cases hb : b = co
          · subst hb; simp [s₁, waitsOn, modCo, Coroutine.woken]
          · simp [s₁, waitsOn, modCo, hb]
        obtain ⟨q', he, hq⟩ := ih s₁ (by rw [hf]; simp only [s₁, Ring.push]; omega)
        rw [hf] at he hq
        have hcond : (s.mem co).state = .waiting ∧ (s.mem co).awaiting = some done :=
          waitsOn_iff.mp hw
        refine ⟨q', ?_, ?_⟩
        · rw [wakeupLoop, if_pos hcond]
          have hp : (s.modCo co Coroutine.woken).qPush co = .ok s₁ :=
            qPush_of_lt (s.modCo co Coroutine.woken) co hlt
          refine (congrArg (· >>= wakeupLoop done rest) hp).trans (he.trans ?_)
          congr 2
          funext a
          by_cases ha : a = co
          · subst ha
            simp [wokenMem, s₁, modCo]
          · simp [wokenMem, s₁, modCo, ha]
        · rw [hq]
          simp [s₁, runQueue]
      · have hcond : ¬ ((s.mem co).state = .waiting ∧ (s.mem co).awaiting = some done) :=
          fun h => hw (waitsOn_iff.mpr h)
        rw [List.filter_cons_of_neg hw] at hroom ⊢
        rw [wakeupLoop, if_neg hcond]
        exact ih s hroom

/-- **The effect of `wakeup_waiters`**, for every table with room in the queue. -/
theorem wakeupWaiters_eq (s : State Fn Arg) (done : Addr)
    (hroom : s.q.size + (s.waiters done).length ≤ queueCap) :
    ∃ q', s.wakeupWaiters done = .ok { s with mem := s.wokenMem (s.waiters done), q := q' } ∧
      q'.toList = s.runQueue ++ s.waiters done :=
  wakeupLoop_eq done s.all s hroom

/-- Who is woken depends on the table and on who waits, not on how they came to wait. -/
theorem waiters_congr {s s₂ : State Fn Arg} {done : Addr} (hall : s₂.all = s.all)
    (hw : ∀ a ∈ s.all, s₂.waitsOn done a = s.waitsOn done a) :
    s₂.waiters done = s.waiters done := by
  rw [waiters, hall, List.filter_congr hw, waiters]

/-- **Exactly what `wakeup_waiters` does.**  The coroutines that wait on `done` are appended to the
run-queue, each once, in the order of their first slot in `S.all`; they become ready with nothing
awaited, and nothing else changes.  Any other state with the same table and the same waiters
gives the same order. -/
theorem wakeupWaiters_effect (s : State Fn Arg) (done : Addr)
    (hroom : s.q.size + (s.waiters done).length ≤ queueCap) :
    ∃ s' ws, s.wakeupWaiters done = .ok s' ∧ s'.runQueue = s.runQueue ++ ws ∧ ws.Nodup ∧
      (∀ a, a ∈ ws ↔ a ∈ s.all ∧ (s.mem a).state = .waiting ∧ (s.mem a).awaiting = some done) ∧
      ws.Pairwise (fun a b => s.all.idxOf a < s.all.idxOf b) ∧
      (∀ a ∈ ws, a ∉ s.runQueue → s'.runQueue.count a = 1) ∧
      (∀ a ∈ ws, s'.mem a = { s.mem a with state := .ready, awaiting := none }) ∧
      (∀ a, a ∉ ws → s'.mem a = s.mem a) ∧
      s' = { s with mem := s'.mem, q := s'.q } ∧
      ∀ s₂ : State Fn Arg, s₂.all = s.all →
        (∀ a ∈ s.all, s₂.waitsOn done a = s.waitsOn done a) →
        s₂.q.size + ws.length ≤ queueCap →
        ∃ s₂', s₂.wakeupWaiters done = .ok s₂' ∧ s₂'.runQueue = s₂.runQueue ++ ws := by
  obtain ⟨q', he, hq⟩ := s.wakeupWaiters_eq done hroom
  refine ⟨_, s.waiters done, he, hq, s.nodup_waiters done, fun a => mem_waiters,
    Support.pairwise_idxOf_eraseDups _ _, fun a ha hn => ?_, fun a ha => if_pos ha,
    fun a ha => if_neg ha, rfl, fun s₂ hall hw hroom₂ => ?_⟩
  · rw [runQueue, hq, List.count_append, List.count_eq_zero_of_not_mem hn,
      List.count_eq_one_of_mem (s.nodup_waiters done) ha]
  · have hws : s₂.waiters done = s.waiters done := waiters_congr hall hw
    obtain ⟨q₂, he₂, hq₂⟩ := s₂.wakeupWaiters_eq done (by rw [hws]; exact hroom₂)
    exact ⟨_, he₂, hws ▸ hq₂⟩

/-- A table in which the waiter `20` occurs twice, before and after the waiter `10`; the run-queue
holds `40`. -/
def waiterTwice : State Unit Unit :=
  let s := (init.modCo 10 fun r => { r with state := .waiting, awaiting := some 30 }).modCo 20
    fun r => { r with state := .waiting, awaiting := some 30 }
  { s with all := [20, 30, 10, 20], q := s.q.push 40 (Nat.zero_lt_succ _) }

theorem wakeupWaiters_effect_waiterTwice :
    ∃ s', waiterTwice.wakeupWaiters 30 = .ok s' ∧ s'.runQueue.count 20 = 1 ∧
      (s'.mem 20).state = .ready ∧ s'.mem 40 = waiterTwice.mem 40 := by
  obtain ⟨s', ws, he, -, -, hmem, -, honce, hwoken, hframe, -⟩ :=
    wakeupWaiters_effect waiterTwice 30 (by decide)
  have h20 : 20 ∈ ws := (hmem 20).mpr (by decide)
  have h40 : 40 ∉ ws := fun h => absurd ((hmem 40).mp h) (by decide)
  exact ⟨s', he, honce 20 h20 (by decide), by rw [hwoken 20 h20], hframe 40 h40⟩

end State

end CCoroutine
