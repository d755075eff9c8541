import CCoroutine.Safety.RunQueue
import CCoroutine.Support.Links

/-!
# Completion — Return

What holds when `co_run` returns to main.  Its loop stops on an empty run-queue, so every
coroutine is done or waiting; a waiting coroutine waits on another waiting one, and following the
`awaiting` links runs into a cycle.  All are done exactly when there is no cycle.
-/

namespace CCoroutine
open Support (Reachable follow OnCycle)

namespace Ideal

variable {Fn Arg : Type} {A : Sys Fn Arg}

/-- With nothing ready and no body executing, a task is done or waiting. -/
theorem Inv.done_or_waiting (h : Inv A) (hf : A.Flat) (hc : A.ctl = .user none)
    (hq : A.queue = []) {k : ℕ} {t : Task Fn Arg} (ht : A.task k = some t) :
    t.state = .done ∨ t.state = .waiting := by
  cases hs : t.state with
  | ready => exact absurd ((h.ready k).mpr ⟨t, ht, hs⟩) (by simp [hq])
  | running =>
      have := (h.inState_running_iff hf k).mp ⟨t, ht, hs⟩
      rw [hc] at this
      cases this
  | waiting => exact .inr rfl
  | done => exact .inl rfl

end Ideal

namespace State

variable {Fn Arg : Type} {s s' : State Fn Arg}

/-- The `awaiting` link of the coroutine at an address. -/
def link (s : State Fn Arg) (a : Addr) : Option Addr := (s.mem a).awaiting

/-- The coroutine at `a` is unfreed and waits. -/
def Waits (s : State Fn Arg) (a : Addr) : Prop := s.live a = true ∧ (s.mem a).state = .waiting

theorem InvM.finite_waits (h : s.InvM) : {a | s.Waits a}.Finite :=
  (List.finite_toSet s.all).subset fun _ ha => h.addr.mem_all ha.1

/-- A coroutine that is not done is unfreed. -/
theorem InvM.live_of_not_done (h : s.InvM) {k : ℕ} {t : Ideal.Task Fn Arg}
    (ht : s.taskAt k = some t) (hd : t.state ≠ .done) :
    ∃ a, s.live a = true ∧ s.idOf a = k ∧ t = (s.mem a).task s.idOf false := by
  rcases h.addr.taskAt_cases ht with ⟨r, -, rfl⟩ | ha
  · exact absurd (h.ideal.freed k _ ht rfl) hd
  · exact ha

/-- Main executes, and nothing is ready. -/
structure Quiet (s : State Fn Arg) : Prop where
  inv : s.InvM
  main : s.ctl = .user none
  empty : s.runQueue = []

namespace Quiet

theorem done_or_waiting (h : s.Quiet) {k : ℕ} {t : Ideal.Task Fn Arg}
    (ht : s.taskAt k = some t) : t.state = .done ∨ t.state = .waiting :=
  h.inv.ideal.done_or_waiting h.inv.flat (abs_ctl_user h.main) (by simp [abs, h.empty]) ht

/-- A waiting coroutine waits on a waiting coroutine. -/
theorem exists_link (h : s.Quiet) {a : Addr} (ha : s.Waits a) :
    ∃ b, s.link a = some b ∧ s.Waits b := by
  obtain ⟨b, hb⟩ := Option.ne_none_iff_exists'.mp ((h.inv.waiting_iff ha.1).mp ha.2)
  have hbl := h.inv.target a b ha.1 hb
  refine ⟨b, hb, hbl, (h.done_or_waiting (h.inv.addr.taskAt_live hbl)).resolve_left ?_⟩
  exact h.inv.target_not_done ha.1 hb

/-- All done, unless there is a cycle. -/
theorem all_done_iff (h : s.Quiet) :
    (∀ k t, s.taskAt k = some t → t.state = .done) ↔
      ¬ ∃ a, s.live a = true ∧ OnCycle s.link a := by
  constructor
  · rintro hd ⟨a, ha, hcyc⟩
    have hw : (s.mem a).state = .waiting := (h.inv.waiting_iff ha).mpr hcyc.next_ne_none
    have hda : (s.mem a).state = .done := hd _ _ (h.inv.addr.taskAt_live ha)
    rw [hw] at hda
    cases hda
  · intro hn k t ht
    by_contra hd
    obtain ⟨a, ha, -, rfl⟩ := h.inv.live_of_not_done ht hd
    have hw : s.Waits a := ⟨ha, (h.done_or_waiting ht).resolve_left hd⟩
    obtain ⟨-, b, -, hb, hcyc⟩ :=
      Support.exists_onCycle (fun _ => h.exists_link) h.inv.finite_waits hw
    exact hn ⟨b, hb.1, hcyc⟩

end Quiet

/-- `co_run` returns to main with nothing ready. -/
theorem InvM.quiet_of_return (h : s.InvM) {who : Option Addr} {a : Act Fn Arg}
    (hc : s.ctl = .loop who) (hs : StepM s a s') (hc' : s'.ctl = .user none) : s'.Quiet := by
  obtain ⟨hstep, hi⟩ := h.refines hs
  refine ⟨hi, hc', ?_⟩
  rcases hstep.main_of (abs_ctl_user hc') with hm | ⟨-, hq⟩
  · rw [abs_ctl_loop hc] at hm
    cases hm
  · simpa [abs] using hq

/-- **What `co_run` guarantees on return.**  Nothing is ready or running, every coroutine ever
created is done or waiting, and the `awaiting` links of a waiting one run through waiting
coroutines into a cycle; all are done exactly when the links have no cycle. -/
theorem coRun_return (h : Reachable StepM (init : State Fn Arg) s) {who : Option Addr}
    {a : Act Fn Arg} (hc : s.ctl = .loop who) (hs : StepM s a s') (hc' : s'.ctl = .user none) :
    s'.runQueue = [] ∧ s'.running = none ∧
    (∀ k, 1 ≤ k → k ≤ s'.all.length →
      ∃ t, s'.taskAt k = some t ∧ (t.state = .done ∨ t.state = .waiting)) ∧
    (∀ a, s'.Waits a → (∀ n, ∃ b, follow s'.link n a = some b ∧ s'.Waits b) ∧
      ∃ n b, follow s'.link n a = some b ∧ OnCycle s'.link b) ∧
    ((∀ k t, s'.taskAt k = some t → t.state = .done) ↔
      ¬ ∃ a, s'.live a = true ∧ OnCycle s'.link a) := by
  have hq := (invM_of_reachable h).quiet_of_return hc hs hc'
  refine ⟨hq.empty, hq.inv.running_eq hc', fun k h1 hk => ?_, fun b hb => ⟨?_, ?_⟩, hq.all_done_iff⟩
  · obtain ⟨t, ht⟩ := Option.ne_none_iff_exists'.mp ((hq.inv.ideal.range k).mpr ⟨h1, hk⟩)
    exact ⟨t, ht, hq.done_or_waiting ht⟩
  · exact Support.exists_follow (fun _ => hq.exists_link) hb
  · obtain ⟨n, d, hd, -, hcyc⟩ :=
      Support.exists_onCycle (fun _ => hq.exists_link) hq.inv.finite_waits hb
    exact ⟨n, d, hd, hcyc⟩

/-- A coroutine awaits itself, and `co_run` is about to return. -/
def selfAwait : List (Act Unit Unit) :=
  [.create (some ()) none 0 (.ok 10 11), .run, .sched, .await (some 10)]

theorem coRun_return_selfAwait :
    ∃ s', StepM (after selfAwait) .sched s' ∧ s'.Waits 10 ∧
      (∃ n b, follow s'.link n 10 = some b ∧ OnCycle s'.link b) ∧
      ¬ ∀ k t, s'.taskAt k = some t → t.state = .done := by
  have hs : StepM (after selfAwait) .sched (after (selfAwait ++ [.sched])) :=
    ⟨⟨⟨none, rfl⟩, rfl⟩, trivial⟩
  have hc : (after selfAwait).ctl = .loop none := rfl
  have h := coRun_return (reachable_after selfAwait (by decide)) hc hs rfl
  have hw : (after (selfAwait ++ [.sched])).Waits 10 := ⟨by decide, by decide⟩
  refine ⟨_, hs, hw, (h.2.2.2.1 10 hw).2, fun hd => h.2.2.2.2.mp hd ⟨10, by decide, 0, by decide⟩⟩

end State

end CCoroutine
