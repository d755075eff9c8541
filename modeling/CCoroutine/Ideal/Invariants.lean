import CCoroutine.Ideal.Definitions
import CCoroutine.Support.Runs

/-!
# Ideal — Invariants

The invariant of the ideal scheduler (`Inv`), from the initial system and through every step
(`Inv.step`).

* The run-queue holds exactly the ready tasks, each once.
* The running tasks are the one being executed and those suspended inside a `co_run` of their
  own; with `co_run` called from main only, there are none of the latter.
* A task waits exactly when it has a target, and the target exists and is not done.
* Only a done task is freed, and a task that has not been started is ready.
-/

namespace CCoroutine.Ideal

variable {Fn Arg : Type}

namespace Sys

def init : Sys Fn Arg where
  count := 0
  task := fun _ => none
  queue := []
  ctl := .user none
  frames := []

end Sys

/-- The control point and the `co_run` calls in progress. -/
def CtlOk (frames : List (Option ℕ)) : Ctl ℕ → Prop
  | .user none => frames = []
  | .user (some k) => frames ≠ [] ∧ some k ∉ frames
  | .loop who => ∃ rest, frames = who :: rest

structure Inv (A : Sys Fn Arg) : Prop where
  range : ∀ k, A.task k ≠ none ↔ 1 ≤ k ∧ k ≤ A.count
  nodup : A.queue.Nodup
  ready : ∀ k, k ∈ A.queue ↔ A.InState k .ready
  running : ∀ k, A.InState k .running ↔ A.ctl = .user (some k) ∨ some k ∈ A.frames
  waiting : ∀ k t, A.task k = some t → (t.state = .waiting ↔ t.awaiting ≠ none)
  target : ∀ k t j, A.task k = some t → t.awaiting = some j →
    ∃ u, A.task j = some u ∧ u.state ≠ .done
  freed : ∀ k t, A.task k = some t → t.freed = true → t.state = .done
  unstarted : ∀ k t, A.task k = some t → t.started = false → t.state = .ready
  ctl : CtlOk A.frames A.ctl
  framesNodup : A.frames.Nodup
  /-- The oldest `co_run` in progress is main's. -/
  framesMain : A.frames = [] ∨ ∃ l : List ℕ, A.frames = l.map some ++ [none]

theorem inv_init : Inv (Sys.init : Sys Fn Arg) where
  range k := ⟨fun h => absurd rfl h, fun h => absurd h (by simp [Sys.init]; omega)⟩
  nodup := List.nodup_nil
  ready k := by simp [Sys.init, Sys.InState]
  running k := by simp [Sys.init, Sys.InState]
  waiting k t h := by simp [Sys.init] at h
  target k t j h := by simp [Sys.init] at h
  freed k t h := by simp [Sys.init] at h
  unstarted k t h := by simp [Sys.init] at h
  ctl := rfl
  framesNodup := List.nodup_nil
  framesMain := .inl rfl

/-! ### States of tasks -/

namespace Sys

variable {A B : Sys Fn Arg} {k j : ℕ} {t : Task Fn Arg} {st st' : CoState}

theorem InState.eq (h : A.InState k st) (ht : A.task k = some t) : t.state = st := by
  obtain ⟨u, hu, rfl⟩ := h
  rw [ht] at hu
  cases hu
  rfl

theorem InState.unique (h : A.InState k st) (h' : A.InState k st') : st = st' := by
  obtain ⟨t, ht, rfl⟩ := h
  exact (h'.eq ht)

theorem inState_update_self (hB : B.task = Function.update A.task k (some t)) :
    B.InState k st ↔ t.state = st := by
  simp [InState, hB]

theorem inState_update_of_ne (hB : B.task = Function.update A.task k (some t)) (hj : j ≠ k) :
    B.InState j st ↔ A.InState j st := by
  simp only [InState, hB, Function.update_of_ne hj]

end Sys

open Sys

namespace Inv

variable {A B : Sys Fn Arg} {k : ℕ} {t t' : Task Fn Arg}

/-! ### What the invariant says of one task -/

/-- The task being executed is running. -/
theorem running_of_ctl (h : Inv A) (hc : A.ctl = .user (some k)) : A.InState k .running :=
  (h.running k).mpr (.inl hc)

/-- The task being executed is in no `co_run` of its own. -/
theorem not_framed (h : Inv A) (hc : A.ctl = .user (some k)) : some k ∉ A.frames := by
  have := h.ctl
  rw [hc] at this
  exact this.2

theorem awaiting_none (h : Inv A) (ht : A.task k = some t) (hs : t.state ≠ .waiting) :
    t.awaiting = none := by
  by_contra hn
  exact hs ((h.waiting k t ht).mpr hn)

theorem not_queued (h : Inv A) (ht : A.task k = some t) (hs : t.state ≠ .ready) :
    k ∉ A.queue :=
  fun hm => hs (((h.ready k).mp hm).eq ht)

theorem not_freed (h : Inv A) (ht : A.task k = some t) (hs : t.state ≠ .done) :
    t.freed ≠ true :=
  fun hf => hs (h.freed k t ht hf)

theorem started (h : Inv A) (ht : A.task k = some t) (hs : t.state ≠ .ready) :
    t.started ≠ false :=
  fun hf => hs (h.unstarted k t ht hf)

/-! ### Steps that change one task -/

/-- A task is the changed one, or is as it was. -/
theorem task_update {j : ℕ} {u : Task Fn Arg} (hB : B.task = Function.update A.task k (some t'))
    (hu : B.task j = some u) : u = t' ∨ A.task j = some u := by
  rw [hB] at hu
  by_cases e : j = k
  · rw [e, Function.update_self] at hu
    exact .inl (Option.some.inj hu).symm
  · rw [Function.update_of_ne e] at hu
    exact .inr hu

/-- **One task changes.**  The invariant of the tasks follows when the new task is consistent
and does not finish here; the queue, the control point and the frames are the caller's. -/
theorem update (h : Inv A) (ht : A.task k = some t)
    (hB : B.task = Function.update A.task k (some t')) (hcount : B.count = A.count)
    (hw : t'.state = .waiting ↔ t'.awaiting ≠ none)
    (htarget : ∀ j, t'.awaiting = some j → ∃ u, B.task j = some u ∧ u.state ≠ .done)
    (hdone : t'.state = .done → t.state = .done)
    (hfreed : t'.freed = true → t'.state = .done)
    (hstart : t'.started = false → t'.state = .ready)
    (hnodup : B.queue.Nodup) (hready : ∀ j, j ∈ B.queue ↔ B.InState j .ready)
    (hrun : ∀ j, B.InState j .running ↔ B.ctl = .user (some j) ∨ some j ∈ B.frames)
    (hctl : CtlOk B.frames B.ctl) (hfn : B.frames.Nodup)
    (hfm : B.frames = [] ∨ ∃ l : List ℕ, B.frames = l.map some ++ [none]) : Inv B where
  range j := by
    rw [hB, hcount, ← h.range j]
    by_cases e : j = k
    · subst e; simp [ht]
    · rw [Function.update_of_ne e]
  nodup := hnodup
  ready := hready
  running := hrun
  waiting j u hu := by
    rcases task_update hB hu with rfl | hu
    · exact hw
    · exact h.waiting j u hu
  target j u i hu hi := by
    rcases task_update hB hu with rfl | hu
    · exact htarget i hi
    · obtain ⟨v, hv, hvd⟩ := h.target j u i hu hi
      by_cases e' : i = k
      · subst e'
        rw [ht] at hv
        cases hv
        exact ⟨t', by rw [hB, Function.update_self], fun hd => hvd (hdone hd)⟩
      · exact ⟨v, by rw [hB, Function.update_of_ne e', hv], hvd⟩
  freed j u hu := by
    rcases task_update hB hu with rfl | hu
    · exact hfreed
    · exact h.freed j u hu
  unstarted j u hu := by
    rcases task_update hB hu with rfl | hu
    · exact hstart
    · exact h.unstarted j u hu
  ctl := hctl
  framesNodup := hfn
  framesMain := hfm

theorem create (h : Inv A) (fn : Option Fn) (arg : Option Arg) : Inv (A.create fn arg) := by
  have hnew : A.task (A.count + 1) = none := by
    by_contra hn
    exact absurd ((h.range _).mp hn).2 (Nat.not_succ_le_self _)
  have old : ∀ {j u}, A.task j = some u → j ≠ A.count + 1 := by
    intro j u hu e
    rw [e, hnew] at hu; cases hu
  have hnew' : ∀ st, ¬ A.InState (A.count + 1) st := by
    intro st hs
    obtain ⟨u, hu, -⟩ := hs
    exact old hu rfl
  refine ⟨fun j => ?_, ?_, fun j => ?_, fun j => ?_, fun j u hu => ?_, fun j u i hu hi => ?_,
    fun j u hu => ?_, fun j u hu => ?_, h.ctl, h.framesNodup, h.framesMain⟩
  · by_cases e : j = A.count + 1
    · subst e; simp [Sys.create]
    · have := h.range j
      simp only [Sys.create, Function.update_of_ne e, this]
      omega
  · refine List.Nodup.append h.nodup (List.nodup_singleton _) ?_
    rw [List.disjoint_singleton]
    exact fun hm => hnew' _ ((h.ready _).mp hm)
  · by_cases e : j = A.count + 1
    · subst e
      rw [inState_update_self (B := A.create fn arg) rfl]
      simp [Sys.create]
    · rw [inState_update_of_ne (B := A.create fn arg) rfl e, ← h.ready j]
      simp [Sys.create, e]
  · by_cases e : j = A.count + 1
    · subst e
      rw [inState_update_self (B := A.create fn arg) rfl]
      exact ⟨fun h => (by cases h), fun hr => absurd ((h.running _).mpr hr) (hnew' _)⟩
    · rw [inState_update_of_ne (B := A.create fn arg) rfl e]
      exact h.running j
  · rcases task_update rfl hu with rfl | hu
    · simp
    · exact h.waiting j u hu
  · rcases task_update rfl hu with rfl | hu
    · cases hi
    · obtain ⟨v, hv, hd⟩ := h.target j u i hu hi
      exact ⟨v, by simp only [Sys.create, Function.update_of_ne (old hv), hv], hd⟩
  · rcases task_update rfl hu with rfl | hu
    · simp
    · exact h.freed j u hu
  · rcases task_update rfl hu with rfl | hu
    · simp
    · exact h.unstarted j u hu

theorem free (h : Inv A) (ht : A.task k = some t) (hd : t.state = .done) :
    Inv (A.set k { t with freed := true }) := by
  have hs : ∀ j st, (A.set k { t with freed := true }).InState j st ↔ A.InState j st := by
    intro j st
    by_cases e : j = k
    · subst e
      rw [inState_update_self (A := A) rfl]
      exact ⟨fun hst => ⟨t, ht, hst⟩, fun hst => InState.eq (t := t) hst ht⟩
    · exact inState_update_of_ne rfl e
  have ha : t.awaiting = none := h.awaiting_none ht (by rw [hd]; decide)
  refine h.update ht rfl rfl (h.waiting k t ht) (fun j hj => ?_) (fun _ => hd) (fun _ => hd)
    (fun hf => h.unstarted k t ht hf) h.nodup (fun j => (h.ready j).trans (hs j _).symm)
    (fun j => (hs j _).trans (h.running j)) h.ctl h.framesNodup h.framesMain
  rw [ha] at hj
  cases hj

/-- Once the task that was executing has left its body, what runs is in the frames. -/
theorem running_left (h : Inv A) (hc : A.ctl = .user (some k))
    (hB : B.task = Function.update A.task k (some t')) (hs : t'.state ≠ .running) {o : Option ℕ}
    (hctl : B.ctl = .loop o) (hf : B.frames = A.frames) (j : ℕ) :
    B.InState j .running ↔ B.ctl = .user (some j) ∨ some j ∈ B.frames := by
  rw [hctl, hf]
  by_cases e : j = k
  · subst e
    rw [inState_update_self hB]
    simp [hs, h.not_framed hc]
  · rw [inState_update_of_ne hB e, h.running j, hc]
    simp [Ne.symm e]

theorem yield (h : Inv A) {o : Option ℕ} {rest : List (Option ℕ)}
    (hc : A.ctl = .user (some k)) (ht : A.task k = some t) (hf : A.frames = o :: rest) :
    Inv { A.set k { t with state := .ready } with queue := A.queue ++ [k], ctl := .loop o } := by
  have hr : t.state = .running := (h.running_of_ctl hc).eq ht
  have ha : t.awaiting = none := h.awaiting_none ht (by simp [hr])
  have hk : k ∉ A.queue := h.not_queued ht (by simp [hr])
  refine h.update ht rfl rfl (by simp [ha]) (fun j hj => ?_) (fun hd => by cases hd)
    (fun hfr => (h.not_freed ht (by simp [hr]) hfr).elim) (fun _ => rfl) ?_ (fun j => ?_)
    (h.running_left hc rfl (by simp) rfl rfl) ⟨rest, hf⟩ h.framesNodup h.framesMain
  · simp only [ha] at hj
    cases hj
  · exact List.Nodup.append h.nodup (List.nodup_singleton _) (List.disjoint_singleton.mpr hk)
  · by_cases e : j = k
    · subst e; rw [inState_update_self (A := A) rfl]; simp
    · rw [inState_update_of_ne (A := A) rfl e, ← h.ready j]; simp [e]

theorem block (h : Inv A) {j : ℕ} {u : Task Fn Arg} {o : Option ℕ} {rest : List (Option ℕ)}
    (hc : A.ctl = .user (some k)) (ht : A.task k = some t) (hj : A.task j = some u)
    (hn : u.state ≠ .done) (hf : A.frames = o :: rest) :
    Inv { A.set k { t with state := .waiting, awaiting := some j } with ctl := .loop o } := by
  have hr : t.state = .running := (h.running_of_ctl hc).eq ht
  have hk : k ∉ A.queue := h.not_queued ht (by simp [hr])
  refine h.update ht rfl rfl (by simp) (fun i hi => ?_) (fun hd => by cases hd)
    (fun hfr => (h.not_freed ht (by simp [hr]) hfr).elim)
    (fun hst => (h.started ht (by simp [hr]) hst).elim) h.nodup (fun i => ?_)
    (h.running_left hc rfl (by simp) rfl rfl) ⟨rest, hf⟩ h.framesNodup h.framesMain
  · -- the target is `k` itself, now waiting, or an unfinished task as before
    obtain rfl : j = i := Option.some.inj hi
    by_cases e : j = k
    · subst e; exact ⟨_, Function.update_self _ _ _, by simp⟩
    · exact ⟨u, by simp only [Sys.set, Function.update_of_ne e, hj], hn⟩
  · by_cases e : i = k
    · subst e
      rw [inState_update_self (A := A) rfl]
      simpa [Sys.set] using hk
    · rw [inState_update_of_ne (A := A) rfl e]; exact h.ready i

theorem resume (h : Inv A) {who : Option ℕ} {q : List ℕ} (hc : A.ctl = .loop who)
    (hq : A.queue = k :: q) (ht : A.task k = some t) :
    Inv { A.set k { t with state := .running, started := true } with
      queue := q, ctl := .user (some k) } := by
  have hr : t.state = .ready := ((h.ready k).mp (by rw [hq]; exact List.mem_cons_self)).eq ht
  have ha : t.awaiting = none := h.awaiting_none ht (by simp [hr])
  have hnd : k ∉ q ∧ q.Nodup := List.nodup_cons.mp (hq ▸ h.nodup)
  have hkf : some k ∉ A.frames := by
    intro hm
    have := ((h.running k).mpr (.inr hm)).eq ht
    rw [hr] at this
    cases this
  have hfr : A.frames ≠ [] := by
    have := h.ctl
    rw [hc] at this
    obtain ⟨rest, hf⟩ := this
    rw [hf]
    exact List.cons_ne_nil _ _
  refine h.update ht rfl rfl (by simp [ha]) (fun j hj => ?_) (fun hd => by cases hd)
    (fun hfr => (h.not_freed ht (by simp [hr]) hfr).elim) (fun h => by cases h) hnd.2
    (fun j => ?_) (fun j => ?_) ⟨hfr, hkf⟩ h.framesNodup h.framesMain
  · simp only [ha] at hj
    cases hj
  · by_cases e : j = k
    · subst e
      rw [inState_update_self (A := A) rfl]
      simpa using hnd.1
    · rw [inState_update_of_ne (A := A) rfl e, ← h.ready j, hq]; simp [e]
  · by_cases e : j = k
    · subst e; rw [inState_update_self (A := A) rfl]; simp
    · rw [inState_update_of_ne (A := A) rfl e, h.running j, hc]
      simp [Sys.set, Ne.symm e]

/-! ### The finishing task wakes its waiters -/

theorem inState_finish {ws : List ℕ} (hw : ∀ w ∈ ws, A.WaitsOn w k)
    (hB : B.task = A.finishTask k t ws) (j : ℕ) (st : CoState) :
    B.InState j st ↔
      if j = k then st = .done else if j ∈ ws then st = .ready else A.InState j st := by
  by_cases e : j = k
  · subst e; simp [InState, hB, finishTask, eq_comm]
  · by_cases hj : j ∈ ws
    · obtain ⟨u, hu, -⟩ := hw j hj
      simp [InState, hB, finishTask, e, hj, hu, Task.woken, eq_comm]
    · simp [InState, hB, finishTask, e, hj]

/-- A task after `k` has finished is `k`, a waiter of `k`, or a task as before. -/
theorem finishTask_cases {ws : List ℕ} {j : ℕ} {u : Task Fn Arg}
    (hu : A.finishTask k t ws j = some u) :
    (j = k ∧ u = { t with state := .done }) ∨
      (j ≠ k ∧ j ∈ ws ∧ ∃ v, A.task j = some v ∧ u = v.woken) ∨
      (j ≠ k ∧ j ∉ ws ∧ A.task j = some u) := by
  unfold finishTask at hu
  split at hu
  · next e => exact .inl ⟨e, (Option.some.inj hu).symm⟩
  · next e =>
      split at hu
      · next hj =>
          obtain ⟨v, hv, rfl⟩ := Option.map_eq_some_iff.mp hu
          exact .inr (.inl ⟨e, hj, v, hv, rfl⟩)
      · next hj => exact .inr (.inr ⟨e, hj, hu⟩)

theorem finish (h : Inv A) {ws : List ℕ} {o : Option ℕ} {rest : List (Option ℕ)}
    (hc : A.ctl = .user (some k)) (ht : A.task k = some t) (hf : A.frames = o :: rest)
    (hn : ws.Nodup) (hw : ∀ w, w ∈ ws ↔ A.WaitsOn w k) :
    Inv { A with task := A.finishTask k t ws, queue := A.queue ++ ws, ctl := .loop o } := by
  have hr : t.state = .running := (h.running_of_ctl hc).eq ht
  have hkws : k ∉ ws := by
    intro hm
    obtain ⟨u, hu, hs, -⟩ := (hw k).mp hm
    rw [ht] at hu
    cases hu
    rw [hr] at hs
    cases hs
  have hst := fun j st => inState_finish (B := { A with
    task := A.finishTask k t ws, queue := A.queue ++ ws, ctl := .loop o })
    (fun w => (hw w).mp) rfl j st
  refine ⟨fun j => ?_, ?_, fun j => ?_, fun j => ?_, fun j u hu => ?_, fun j u i hu hi => ?_,
    fun j u hu hfr => ?_, fun j u hu hun => ?_, ⟨rest, hf⟩, h.framesNodup, h.framesMain⟩
  · rw [← h.range j]
    simp only [finishTask]
    by_cases e : j = k
    · subst e; simp [ht]
    · by_cases hj : j ∈ ws <;> simp [e, hj]
  · refine List.Nodup.append h.nodup hn fun j hq hj => ?_
    obtain ⟨u, hu, hs, -⟩ := (hw j).mp hj
    exact h.not_queued hu (by simp [hs]) hq
  · rw [hst, List.mem_append]
    by_cases e : j = k
    · subst e; simp [hkws, h.not_queued ht (by simp [hr])]
    · by_cases hj : j ∈ ws
      · simp [e, hj]
      · simp [e, hj, h.ready j]
  · rw [hst]
    by_cases e : j = k
    · subst e; simpa using h.not_framed hc
    · by_cases hj : j ∈ ws
      · obtain ⟨u, hu, hs, -⟩ := (hw j).mp hj
        have hnr : ¬ A.InState j .running := by
          intro hjr
          have := hjr.eq hu
          rw [hs] at this
          cases this
        rw [h.running j] at hnr
        simpa [e, hj] using fun hm => hnr (.inr hm)
      · simp [e, hj, h.running j, hc, Ne.symm e]
  · rcases finishTask_cases hu with ⟨rfl, rfl⟩ | ⟨-, -, v, hv, rfl⟩ | ⟨-, -, hu⟩
    · simp [h.awaiting_none ht (by simp [hr])]
    · simp [Task.woken]
    · exact h.waiting j u hu
  · rcases finishTask_cases hu with ⟨rfl, rfl⟩ | ⟨-, -, v, hv, rfl⟩ | ⟨-, hj, hu⟩
    · simp [h.awaiting_none ht (by simp [hr])] at hi
    · simp [Task.woken] at hi
    · -- a task that still waits does not wait on `k`: `k`'s waiters have been woken
      have hs : u.state = .waiting := (h.waiting j u hu).mpr (by simp [hi])
      have hik : i ≠ k := fun e => hj ((hw j).mpr ⟨u, hu, hs, e ▸ hi⟩)
      obtain ⟨v, hv, hd⟩ := h.target j u i hu hi
      by_cases hiw : i ∈ ws
      · exact ⟨v.woken, by simp [finishTask, hik, hiw, hv], by simp [Task.woken]⟩
      · exact ⟨v, by simp [finishTask, hik, hiw, hv], hd⟩
  · rcases finishTask_cases hu with ⟨rfl, rfl⟩ | ⟨-, hj, v, hv, rfl⟩ | ⟨-, -, hu⟩
    · rfl
    · obtain ⟨v', hv', hs, -⟩ := (hw j).mp hj
      rw [hv] at hv'
      cases hv'
      exact (h.not_freed hv (by simp [hs]) hfr).elim
    · exact h.freed j u hu hfr
  · rcases finishTask_cases hu with ⟨rfl, rfl⟩ | ⟨-, -, v, hv, rfl⟩ | ⟨-, -, hu⟩
    · exact (h.started ht (by simp [hr]) hun).elim
    · rfl
    · exact h.unstarted j u hu hun

/-! ### `co_run` is called, and returns -/

theorem run (h : Inv A) {who : Option ℕ} (hc : A.ctl = .user who) :
    Inv { A with ctl := .loop who, frames := who :: A.frames } := by
  have hctl := h.ctl
  rw [hc] at hctl
  refine ⟨h.range, h.nodup, h.ready, fun j => ?_, h.waiting, h.target, h.freed, h.unstarted,
    ⟨_, rfl⟩, ?_, .inr ?_⟩
  · refine (h.running j).trans ?_
    rw [hc]
    simp [eq_comm]
  · cases who with
    | none => rw [show A.frames = [] from hctl]; exact List.nodup_singleton _
    | some k => exact List.nodup_cons.mpr ⟨hctl.2, h.framesNodup⟩
  · cases who with
    | none => exact ⟨[], by rw [show A.frames = [] from hctl]; rfl⟩
    | some k =>
        rcases h.framesMain with hnil | ⟨l, hl⟩
        · exact absurd hnil hctl.1
        · exact ⟨k :: l, by rw [hl]; rfl⟩

theorem runReturn (h : Inv A) {who : Option ℕ} {rest : List (Option ℕ)}
    (hc : A.ctl = .loop who) (hf : A.frames = who :: rest) :
    Inv { A with ctl := .user who, frames := rest } := by
  have hnd : who ∉ rest ∧ rest.Nodup := List.nodup_cons.mp (hf ▸ h.framesNodup)
  -- main's `co_run` is the oldest frame
  have hrest : who = none ∧ rest = [] ∨
      ∃ k l, who = some k ∧ rest = (l : List ℕ).map some ++ [none] := by
    rcases h.framesMain with hnil | ⟨l, hl⟩
    · rw [hf] at hnil
      cases hnil
    · rw [hf] at hl
      cases l with
      | nil => exact .inl (by simpa using hl)
      | cons k l => exact .inr ⟨k, l, by simpa using hl⟩
  refine ⟨h.range, h.nodup, h.ready, fun j => ?_, h.waiting, h.target, h.freed, h.unstarted,
    ?_, hnd.2, ?_⟩
  · refine (h.running j).trans ?_
    rw [hc, hf]
    simp [eq_comm]
  · rcases hrest with ⟨rfl, rfl⟩ | ⟨k, l, rfl, rfl⟩
    · rfl
    · exact ⟨by simp, hnd.1⟩
  · rcases hrest with ⟨rfl, rfl⟩ | ⟨k, l, rfl, rfl⟩
    · exact .inl rfl
    · exact .inr ⟨l, rfl⟩

/-- **The ideal scheduler keeps its invariant.** -/
theorem step {e : Ev Fn Arg} (h : Inv A) (hs : Step A e B) : Inv B := by
  cases hs with
  | create fn arg _ => exact h.create fn arg
  | createFailed | await | sawState | sawId => exact h
  | free _ ht hd _ => exact h.free ht hd
  | yield hc ht hf => exact h.yield hc ht hf
  | block hc ht hj hn hf => exact h.block hc ht hj hn hf
  | finish hc ht hf hn hw => exact h.finish hc ht hf hn hw
  | run hc => exact h.run hc
  | resume hc hq ht => exact h.resume hc hq ht
  | runReturn hc _ hf => exact h.runReturn hc hf

end Inv

end CCoroutine.Ideal
