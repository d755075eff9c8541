import CCoroutine.Safety.Creation

/-!
# Safety — Capacity

`S.all` only grows: `co_free` takes nothing out of it.  So `MAX_COROUTINES` bounds the successful
`co_create` calls of a whole run, not the coroutines that exist at one time: a call is served
exactly when fewer than `MAX_COROUTINES` have succeeded before it (`create_served_iff`).  A loop
that creates, runs and frees one coroutine at a time is stopped in round `MAX_COROUTINES + 1`
(`create_refused`).
-/

namespace CCoroutine
open Support (Steps)

namespace State

variable {Fn Arg : Type} {s s' : State Fn Arg}

/-- `S.all` after any steps: the addresses that `co_create` returned. -/
theorem all_eq_newAddrs {as : List (Act Fn Arg)} (h : Steps Step init as s) :
    s.all = as.filterMap Act.newAddr := by
  obtain ⟨log, rfl, hlog⟩ := exists_log h
  rw [(ids_of_steps hlog).1, List.filterMap_map]
  rfl

/-- The call of `co_create` succeeds, or returns `NULL` because an allocation failed. -/
def Served (s : State Fn Arg) (fn : Option Fn) (arg : Option Arg) (n : ℕ) (al : Alloc) : Prop :=
  ∃ o s', s.coCreate fn arg n al = .ok (o, s') ∧ (o = none → ∀ co stack, al ≠ .ok co stack)

/-- **The cap counts creations.**  After any steps, whoever calls `co_run`, a `co_create` that keeps
to its contract is served if and only if fewer than `MAX_COROUTINES` calls have succeeded before;
otherwise its assertion fails. -/
theorem create_served_iff {as : List (Act Fn Arg)} (h : Steps Step init as s) {fn : Option Fn}
    {arg : Option Arg} {n : ℕ} {al : Alloc} (hl : s.Legal (.create fn arg n al)) :
    (s.Served fn arg n al ↔ (as.filterMap Act.newAddr).length < maxCoroutines) ∧
      (s.coCreate fn arg n al = .error .tooManyCoroutines ↔
        ¬ (as.filterMap Act.newAddr).length < maxCoroutines) := by
  have hi := inv_of_reachable ⟨as, h⟩
  obtain ⟨-, hfn, -⟩ := hl
  obtain ⟨f, rfl⟩ := Option.ne_none_iff_exists'.mp hfn
  rw [← all_eq_newAddrs h]
  by_cases hcount : s.all.length < maxCoroutines
  · have hq := hi.size_lt
    have hserved : ∃ p, s.coCreate (some f) arg n al = .ok p := by
      cases al with
      | callocFails => exact ⟨_, coCreate_of_callocFails hcount⟩
      | mallocFails co => exact ⟨_, coCreate_of_mallocFails hcount⟩
      | ok co stack => exact ⟨_, coCreate_of_ok hcount hq⟩
    obtain ⟨⟨o, s'⟩, he⟩ := hserved
    refine ⟨iff_of_true ⟨o, s', he, ?_⟩ hcount, iff_of_false (by simp [he]) (not_not.mpr hcount)⟩
    rintro rfl co stack rfl
    cases coCreate_returns he
  · have he : s.coCreate (some f) arg n al = .error .tooManyCoroutines := by
      simp [coCreate, hcount]
    refine ⟨iff_of_false ?_ hcount, iff_of_true he hcount⟩
    rintro ⟨o, s', he', -⟩
    rw [he] at he'
    cases he'

/-- The first creation. -/
theorem create_served_first : (init : State Unit Unit).Served (some ()) none 0 (.ok 10 11) :=
  (create_served_iff (.refl init) ⟨⟨none, rfl⟩, by simp, rfl⟩).1.mpr (by decide)

/-! ### One task at a time -/

/-- Create a coroutine, run it to its end and free it. -/
def oneTask (f : Fn) (co stack : Addr) : List (Act Fn Arg) :=
  [.create (some f) none 0 (.ok co stack), .run, .sched, .ret, .sched, .free (some co)]

/-- Main executes, and no coroutine is left. -/
structure Idle (s : State Fn Arg) : Prop where
  main : s.ctl = .user none
  frames : s.frames = []
  queue : s.runQueue = []
  waiting : ∀ a ∈ s.all, (s.mem a).state ≠ .waiting
  dead : ∀ a, s.live a = false

theorem idle_init : (init : State Fn Arg).Idle :=
  ⟨rfl, rfl, rfl, fun _ h => absurd h List.not_mem_nil, fun _ => rfl⟩

/-- A coroutine is created and resumed for the first time. -/
theorem Idle.started (h : s.Idle) (f : Fn) (co stack : Addr)
    (hcount : s.all.length < maxCoroutines) :
    ∃ s', Steps StepM s [.create (some f) none 0 (.ok co stack), .run, .sched] s' ∧
      s'.ctl = .user (some co) ∧ s'.frames = [none] ∧ s'.mainCtx = .inResume none ∧
      s'.runQueue = [] ∧ s'.all = s.all ++ [co] ∧ (∀ a, s'.live a = true ↔ a = co) ∧
      (s'.mem co).state = .running ∧ ∀ a, a ≠ co → s'.mem a = s.mem a := by
  have hsize : s.q.size = 0 := (Support.Ring.toList_eq_nil _).mp h.queue
  have hq : s.q.size < queueCap := by rw [hsize]; decide
  let s₁ := s.created co (s.newCo f none 0 co stack) (s.q.push co hq)
  have h₁ : s.step (.create (some f) none 0 (.ok co stack)) = .ok s₁ := by
    simp only [step_user h.main, call_create, coCreate_of_ok hcount hq]
    rfl
  have hmain : s₁.ctl = .user none := h.main
  let s₂ := s₁.coRun none
  have h₂ : s₁.step .run = .ok s₂ := step_user hmain
  have hq₂ : s₂.runQueue = [co] := by
    show (s.q.push co hq).toList = [co]
    rw [Support.Ring.toList_push, show s.q.toList = [] from h.queue]
    rfl
  have hco : s₂.mem co = s.newCo f none 0 co stack := by simp [s₂, s₁, coRun, created]
  obtain ⟨q₃, h₃, hq₃⟩ := runLoop_cons (s := s₂) none hq₂ (by rw [hco]; rfl) (by rw [hco]; rfl)
    (by rw [hco]; simp [newCo])
  refine ⟨s₂.resumed none co q₃, ?_, rfl, ?_, rfl, hq₃, rfl, fun a => ?_, ?_, fun a ha => ?_⟩
  · exact .more ⟨⟨⟨⟨none, h.main⟩, by simp, h.dead co⟩, h₁⟩, trivial⟩
      (.more ⟨⟨⟨none, hmain⟩, h₂⟩, hmain⟩ (.one ⟨⟨⟨none, rfl⟩, h₃⟩, trivial⟩))
  · show none :: s.frames = [none]
    rw [h.frames]
  · by_cases e : a = co
    · simp [s₂, s₁, resumed, coRun, created, e]
    · simp [s₂, s₁, resumed, coRun, created, e, h.dead a]
  · simp [resumed]
  · simp [s₂, s₁, resumed, coRun, created, ha]

/-- A round leaves nothing but its slot in `S.all`. -/
theorem Idle.oneTask (h : s.Idle) (f : Fn) (co stack : Addr)
    (hcount : s.all.length < maxCoroutines) :
    ∃ s', Steps StepM s (oneTask f co stack) s' ∧ s'.Idle ∧ s'.all = s.all ++ [co] := by
  obtain ⟨s₃, hrun, hc, hf, hm, hq, hall, hlive, hst, hmem⟩ := h.started f co stack hcount
  -- nobody waits for the body that returns
  have hnone : ∀ a ∈ s₃.all, (s₃.mem a).state ≠ .waiting := by
    intro a ha
    by_cases e : a = co
    · rw [e, hst]; simp
    · rw [hmem a e]
      rw [hall] at ha
      exact h.waiting a ((List.mem_append.mp ha).resolve_right (by simpa using e))
  have hw : s₃.waiters co = [] := by
    refine List.eq_nil_iff_forall_not_mem.mpr fun a ha => ?_
    obtain ⟨ha, hwait, -⟩ := mem_waiters.mp ha
    exact hnone a ha hwait
  obtain ⟨q₄, h₄, hq₄⟩ := coEntryRet_eq (s := s₃) (by simp [hst] : (s₃.mem co).state ≠ .waiting) hm
    (by simp [hf]) (by rw [hw]; exact s₃.q.size_le)
  rw [hw, hq] at hq₄
  let s₄ := s₃.finished co q₄ none
  have hdone : (s₄.mem co).state = .done := by simp [s₄, finished, finishMem]
  let s₅ : State Fn Arg := { s₄ with ctl := .user none, frames := [] }
  have h₅ : s₄.runLoop none = .ok s₅ := by
    rw [runLoop_nil (s := s₄) hq₄]
    simp [s₅, s₄, finished, hf]
  have hret : StepM s₃ .ret s₄ := ⟨⟨⟨co, hc⟩, by rw [step_user hc]; exact h₄⟩, trivial⟩
  have hsched : StepM s₄ .sched s₅ := ⟨⟨⟨none, rfl⟩, h₅⟩, trivial⟩
  have h₆ : s₅.step (.free (some co)) = .ok (s₅.freed co) := by
    rw [step_user (s := s₅) rfl, call_free, coFree_of_done (s := s₅) hdone]
  have hfree : StepM s₅ (.free (some co)) (s₅.freed co) :=
    ⟨⟨⟨⟨none, rfl⟩, co, rfl, (hlive co).mpr rfl, hdone⟩, h₆⟩, trivial⟩
  refine ⟨s₅.freed co, hrun.trans (.more hret (.more hsched (.one hfree))),
    ⟨rfl, rfl, hq₄, fun a ha => ?_, fun a => ?_⟩, hall⟩
  · show (s₃.finishMem co a).state ≠ .waiting
    by_cases e : a = co
    · simp [finishMem, e]
    · simp only [finishMem, e, if_false, wokenMem, hw]
      exact hnone a ha
  · by_cases e : a = co
    · simp [freed, e]
    · have : s₃.live a ≠ true := fun ha => e ((hlive a).mp ha)
      simpa [freed, e, s₅, s₄, finished] using this

/-- `n` rounds, each at the same address. -/
theorem exists_idle (f : Fn) (co stack : Addr) : ∀ n ≤ maxCoroutines,
    ∃ s : State Fn Arg, Steps StepM init (List.replicate n (State.oneTask f co stack)).flatten s ∧
      s.Idle ∧ s.all.length = n := by
  intro n
  induction n with
  | zero => exact fun _ => ⟨init, .refl _, idle_init, rfl⟩
  | succ n ih =>
      intro hn
      obtain ⟨s, hrun, hidle, hall⟩ := ih (Nat.le_of_succ_le hn)
      obtain ⟨s', hround, hidle', hall'⟩ := hidle.oneTask f co stack (by omega)
      refine ⟨s', ?_, hidle', by rw [hall', List.length_append, hall]; rfl⟩
      rw [List.replicate_succ', List.flatten_append]
      simpa using hrun.trans hround

/-- After `MAX_COROUTINES` rounds no coroutine exists and none has existed beside another, but
`co_create` fails its assertion. -/
theorem create_refused :
    ∃ (as : List (Act Unit Unit)) (s : State Unit Unit), Steps StepM init as s ∧
      (∀ bs s₁, bs <+: as → Steps Step init bs s₁ → ∀ a, s₁.live a = true → a = 10) ∧
      (∀ a, s.live a = false) ∧ s.Legal (.create (some ()) none 0 (.ok 10 11)) ∧
      s.coCreate (some ()) none 0 (.ok 10 11) = .error .tooManyCoroutines := by
  obtain ⟨s, hrun, hidle, hall⟩ : ∃ s : State Unit Unit, _ :=
    exists_idle () 10 11 maxCoroutines le_rfl
  refine ⟨_, s, hrun, fun bs s₁ hbs hs₁ a ha => ?_, hidle.dead, ⟨⟨none, hidle.main⟩, by simp,
    hidle.dead 10⟩, by simp [coCreate, hall]⟩
  -- what is allocated is in `S.all`, and every creation returned the same address
  have hmem := (inv_of_reachable ⟨bs, hs₁⟩).addr.mem_all ha
  rw [all_eq_newAddrs hs₁] at hmem
  obtain ⟨b, hb, hnew⟩ := List.mem_filterMap.mp hmem
  obtain ⟨round, hround, hb⟩ := List.mem_flatten.mp (hbs.subset hb)
  obtain rfl := List.eq_of_mem_replicate hround
  simp only [State.oneTask, List.mem_cons, List.not_mem_nil, or_false] at hb
  rcases hb with rfl | rfl | rfl | rfl | rfl | rfl <;> cases hnew
  rfl

end State

end CCoroutine
