import CCoroutine.Refinement.Runs
import CCoroutine.Safety.Agreement
import CCoroutine.Temporal.Fifo

/-!
# Safety — Creation

What `co_create` leaves behind.  A call that returns `NULL` has changed nothing but, at most,
memory that is not allocated, so it can be deleted from the run: the other steps, their events and
the states they lead to stay the same (`erase_failed`).  The calls that succeed are registered one
after another: `S.all` lists the addresses they returned, and the ids are `1, 2, …` in the same
order (`ids_of_steps`).
-/

namespace CCoroutine
open CCoroutine.Ideal (Sys Ev)
open Support (Steps)

/-- The id a step gives out. -/
def Ideal.Ev.createdIds {Fn Arg : Type} : Ev Fn Arg → List ℕ
  | .created k _ _ => [k]
  | _ => []

/-- A `co_create` that returns `NULL`. -/
def Ideal.Ev.isCreateFailed {Fn Arg : Type} : Ev Fn Arg → Bool
  | .createFailed => true
  | _ => false

/-- A step, labelled with the call and with what happens in it. -/
def Logged {Fn Arg : Type} (s : State Fn Arg) (l : Act Fn Arg × Ev Fn Arg) (s' : State Fn Arg) :
    Prop :=
  Step s l.1 s' ∧ s.event l.1 = l.2

namespace State

variable {Fn Arg : Type} {s s' s₁ s₂ : State Fn Arg} {a : Act Fn Arg}
  {log : List (Act Fn Arg × Ev Fn Arg)}

theorem Inv.of_logged (hi : s.Inv) (h : Steps Logged s log s') : s'.Inv :=
  h.invariant (P := Inv) (fun _ _ _ hi hs => hi.kept hs.1) hi

/-- Every run has a log. -/
theorem exists_log {as : List (Act Fn Arg)} (h : Steps Step s as s') :
    ∃ log, log.map Prod.fst = as ∧ Steps Logged s log s' := by
  induction h with
  | refl s => exact ⟨[], rfl, .refl s⟩
  | @more s s₁ s' a as hs _ ih =>
      obtain ⟨log, hlog, hrun⟩ := ih
      exact ⟨(a, s.event a) :: log, by rw [List.map_cons, hlog], .more ⟨hs, rfl⟩ hrun⟩

/-! ### Failed calls -/

theorem Agree.of_common (h₁ : s.Agree s₁) (h₂ : s.Agree s₂) : s₁.Agree s₂ := by
  obtain ⟨m₁, rfl, hm₁⟩ := h₁
  obtain ⟨m₂, rfl, hm₂⟩ := h₂
  exact ⟨m₂, rfl, fun a ha => (hm₂ a ha).trans (hm₁ a ha).symm⟩

/-- A `co_create` that returns `NULL` leaves everything allocated as it was. -/
theorem agree_of_null {fn : Option Fn} {arg : Option Arg} {n : ℕ} {al : Alloc}
    (hl : s.Legal (.create fn arg n al)) (hs : s.coCreate fn arg n al = .ok (none, s')) :
    s.Agree s' := by
  obtain ⟨f, rfl, -, ⟨rfl, -, rfl⟩ | ⟨co, rfl, -, rfl⟩ | ⟨co, stack, hq, -, ⟨⟩, -⟩⟩ :=
    coCreate_inv hs
  · exact .refl _
  · refine ⟨_, rfl, fun a ha => Function.update_of_ne (fun e => ?_) _ _⟩
    rw [e, show s.live co = false from hl.2.2] at ha
    cases ha

theorem agree_of_createFailed (hs : Logged s (a, .createFailed) s') : s.Agree s' := by
  obtain ⟨⟨hl, hs⟩, he⟩ := hs
  obtain ⟨fn, arg, n, al, rfl⟩ := causes_of_event he
  obtain ⟨-, o, -, hcr⟩ := step_create_inv hs
  have ho := coCreate_returns hcr
  cases al with
  | callocFails | mallocFails =>
      obtain rfl : o = none := ho
      exact agree_of_null hl hcr
  | ok co stack => cases he

/-- **Failed calls can be deleted**: without them the run goes through states that agree, with the
same events. -/
theorem erase_failed (h : Steps Logged s log s') :
    ∀ s₂, s.Inv → s₂.Inv → s.Agree s₂ →
      ∃ s₂', Steps Logged s₂ (log.filter fun l => !l.2.isCreateFailed) s₂' ∧ s'.Agree s₂' := by
  induction h with
  | refl s => exact fun s₂ _ _ ha => ⟨s₂, .refl _, ha⟩
  | @more s s₁ s' l log hs _ ih =>
      intro s₂ hi hi₂ ha
      by_cases hf : l.2.isCreateFailed = true
      · rw [List.filter_cons_of_neg (by simp [hf])]
        refine ih s₂ (hi.kept hs.1) hi₂ (Agree.of_common ?_ ha)
        obtain ⟨a, e⟩ := l
        obtain rfl : e = .createFailed := by cases e <;> simp_all [Ev.isCreateFailed]
        exact agree_of_createFailed hs
      · rw [List.filter_cons_of_pos (by simpa using hf)]
        obtain ⟨s₃, hs₂, ha'⟩ := ha.step hi hi₂ hs.1
        obtain ⟨s₂', hrun, hend⟩ := ih s₃ (hi.kept hs.1) (hi₂.kept hs₂) ha'
        exact ⟨s₂', .more ⟨hs₂, (ha.event_eq hi hi₂ hs.1.1).trans hs.2⟩ hrun, hend⟩

/-- The failed calls resume nothing. -/
theorem resumedIds_erase (log : List (Act Fn Arg × Ev Fn Arg)) :
    (log.filter fun l => !l.2.isCreateFailed).flatMap (fun l => l.2.resumedIds) =
      log.flatMap fun l => l.2.resumedIds := by
  induction log with
  | nil => rfl
  | cons l log ih =>
      obtain ⟨a, e⟩ := l
      cases e <;> simp_all [Ev.isCreateFailed, Ev.resumedIds]

/-! ### Ids -/

theorem createdIds_event (s : State Fn Arg) (a : Act Fn Arg) :
    (s.event a).createdIds = a.newAddr.toList.map fun _ => s.all.length + 1 := by
  cases a with
  | create fn arg n al => cases al <;> rfl
  | await other => simp only [event]; split <;> rfl
  | sched => simp only [event]; split <;> rfl
  | free | yield | run | state | id | ret => rfl

/-- **The table and the ids**, after any steps. -/
theorem ids_of_steps (h : Steps Logged s log s') :
    s'.all = s.all ++ log.filterMap (fun l => l.1.newAddr) ∧
      log.flatMap (fun l => l.2.createdIds) =
        List.range' (s.all.length + 1) (log.filterMap fun l => l.1.newAddr).length := by
  induction h with
  | refl => simp
  | @more s s₁ s' l log hs _ ih =>
      obtain ⟨hall, hids⟩ := ih
      have hone := step_all hs.1.2
      have hev := createdIds_event s l.1
      rw [hs.2] at hev
      cases hn : l.1.newAddr with
      | none => simp [hn, hall, hone, hids, hev]
      | some co => simp [hn, hall, hone, hids, hev, List.range'_succ]

/-! ### `co_id` -/

/-- A body sees its own id when it suspends, also when it has called `co_run`. -/
theorem Inv.coId_of_suspends (hi : s.Inv) (hs : Step s a s') {k : ℕ}
    (he : s.event a = .yielded k ∨ ∃ j, s.event a = .blocked k j) : s.coId = k := by
  rcases he with he | ⟨j, he⟩
  · obtain rfl : a = .yield := causes_of_event he
    obtain ⟨c, hc⟩ := hs.1
    rw [hi.coId_eq (hi.attached_of_step hs trivial (by simp)) hc, ← Ev.yielded.inj he, self_eq hc]
    rfl
  · obtain ⟨other, rfl⟩ := causes_of_event he
    obtain ⟨⟨c, hc⟩, b, rfl, -⟩ := hs.1
    by_cases hd : (s.mem b).state = .done
    · simp [event, hd] at he
    · have hk : s.self = k := by simp [event, hd] at he; exact he.1
      rw [hi.coId_eq (hi.attached_of_step hs hd (by simp)) hc, ← hk, self_eq hc]
      rfl

/-- A body that has just been resumed sees its own id. -/
theorem Inv.coId_of_resumed (hi : s.Inv) (hs : Step s a s') {k : ℕ}
    {call : Option (Option Fn × Option Arg)} (he : s.event a = .resumed k call) :
    s'.coId = k := by
  obtain rfl : a = .sched := causes_of_event he
  obtain ⟨⟨who, hc⟩, hs⟩ := hs
  simp only [step_loop hc] at hs
  cases hq : s.runQueue with
  | nil => simp [event, hq] at he
  | cons co rest =>
      obtain ⟨hl, hst⟩ := hi.mem_runQueue.mp (hq ▸ List.mem_cons_self : co ∈ s.runQueue)
      obtain ⟨q', hrun, -⟩ := runLoop_cons who hq hst (hi.ctx co hl hst) (hi.fn co hl)
      rw [hrun] at hs
      cases hs
      simp only [event, hq] at he
      simp [coId, resumed, ← (Ev.resumed.inj he).1, idOf]

/-- **Failed creation leaves no trace, and ids have no gaps.**  In every state of every program,
whoever calls `co_run`:
* a `co_create` that returns `NULL` changes nothing that is allocated, and one that succeeds
  returns a record with the next id, in the next slot of `S.all`;
* without the failed calls, the run so far goes through the same events, resumes the same ids and
  leads to a state that agrees;
* `S.all` lists the addresses that `co_create` returned, their ids are `1, …, S.count`, and an
  unfreed record has the id of its slot;
* `co_id` is the id of the calling body when it suspends, when it has been resumed, and, if
  `co_run` has been called from main only, at any time. -/
theorem creation_ids (h : Steps Logged (init : State Fn Arg) log s) :
    (∀ fn arg n al s', s.Legal (.create fn arg n al) →
      (s.coCreate fn arg n al = .ok (none, s') → s.Agree s') ∧
      ∀ co, s.coCreate fn arg n al = .ok (some co, s') →
        (s'.mem co).id = s.all.length + 1 ∧ s'.all = s.all ++ [co]) ∧
    (∃ s₂, Steps Logged init (log.filter fun l => !l.2.isCreateFailed) s₂ ∧ s.Agree s₂ ∧
      (log.filter fun l => !l.2.isCreateFailed).flatMap (fun l => l.2.resumedIds) =
        log.flatMap fun l => l.2.resumedIds) ∧
    (s.all = log.filterMap (fun l => l.1.newAddr) ∧
      log.flatMap (fun l => l.2.createdIds) = List.range' 1 s.all.length ∧
      ∀ k co, s.addrOf k = some co → s.released k = none → s.live co = true ∧ (s.mem co).id = k) ∧
    (∀ a k s', Step s a s' →
      ((s.event a = .yielded k ∨ ∃ j, s.event a = .blocked k j) → s.coId = k) ∧
      ∀ call, s.event a = .resumed k call → s'.coId = k) ∧
    ∀ as c, Steps StepM init as s → s.ctl = .user (some c) → s.coId = (s.mem c).id := by
  have hi : s.Inv := inv_init.of_logged h
  obtain ⟨hall, hids⟩ := ids_of_steps h
  refine ⟨?_, ?_, ⟨hall, by rw [hids, hall]; rfl, fun k co hk hr => ?_⟩, ?_, ?_⟩
  · intro fn arg n al s' hl
    exact ⟨agree_of_null hl, fun co hs => coCreate_some hs⟩
  · obtain ⟨s₂, hrun, ha⟩ := erase_failed h init inv_init inv_init (.refl _)
    exact ⟨s₂, hrun, ha, resumedIds_erase log⟩
  · exact (hi.addr.unreleased k co hk).mp hr
  · intro a k s' hs
    exact ⟨hi.coId_of_suspends hs, fun call he => hi.coId_of_resumed hs he⟩
  · intro as c hM hc
    have hM := invM_of_reachable ⟨as, hM⟩
    exact hM.coId_eq hM.attached hc

/-- Creations that fail in both ways, before and after one that succeeds. -/
def failingCreates : List (Act Unit Unit) :=
  [.create (some ()) none 0 .callocFails, .create (some ()) none 0 (.ok 10 11),
    .create (some ()) none 0 (.mallocFails 20), .run, .sched,
    .create (some ()) none 0 (.mallocFails 30), .create (some ()) none 0 (.ok 20 21)]

theorem creation_ids_failingCreates :
    ∃ (log : List (Act Unit Unit × Ev Unit Unit)) (s : State Unit Unit),
      log.map Prod.fst = failingCreates ∧ s.all = [10, 20] ∧
      log.flatMap (fun l => l.2.createdIds) = [1, 2] ∧
      ∃ s₂, Steps Logged init (log.filter fun l => !l.2.isCreateFailed) s₂ ∧ s.Agree s₂ := by
  have hs : (Support.exec next (init : State Unit Unit) failingCreates).isSome = true := by decide
  obtain ⟨s, hs⟩ := Option.isSome_iff_exists.mp hs
  obtain ⟨log, hlog, hrun⟩ := exists_log (Support.steps_of_exec (fun _ _ _ => step_of_next) hs)
  obtain ⟨-, ⟨s₂, hrun₂, ha, -⟩, ⟨hall, hids, -⟩, -⟩ := creation_ids hrun
  have htable : s.all = [10, 20] := by
    have hmap : log.filterMap (fun l => l.1.newAddr) = failingCreates.filterMap Act.newAddr := by
      rw [← hlog, List.filterMap_map]
      rfl
    rw [hall, hmap]
    rfl
  exact ⟨log, s, hlog, htable, by rw [hids, htable]; rfl, s₂, hrun₂, ha⟩

end State

end CCoroutine
