import CCoroutine.Ideal.Invariants

/-!
# Ideal — Lifecycle

What one step does to one task.  `Change` lists the possibilities and `Step.change` says that
there are no others; the rest is read off it: the edge of the lifecycle that is taken, in the steps
that move the task (`Step.edge`, `Ev.Moves`), that a task keeps its function and argument and is
started by its first resumption (`Step.keeps`), how a wait ends (`Step.waitsOn`), and that done is
final (`Step.done`).
-/

namespace CCoroutine.Ideal

variable {Fn Arg : Type}

namespace Sys

/-- The state of task `k`, if it has been created. -/
def stateOf (A : Sys Fn Arg) (k : ℕ) : Option CoState := (A.task k).map Task.state

theorem stateOf_eq_some {A : Sys Fn Arg} {k : ℕ} {st : CoState} :
    A.stateOf k = some st ↔ A.InState k st := by
  simp [stateOf, InState]

end Sys

open Sys

/-- The step is an edge of the lifecycle of task `k`: its own creation, resumption, suspension or
return, or the return that wakes it. -/
def Ev.Moves (k : ℕ) : Ev Fn Arg → Prop
  | .created i _ _ | .yielded i | .blocked i _ | .resumed i _ => i = k
  | .finished i ws => i = k ∨ k ∈ ws
  | .createFailed | .freed _ | .awaited _ _ | .runCalled _ | .runReturned _ | .sawState _ _
  | .sawId _ => False

/-- What the step `e` can do to task `k`. -/
inductive Change (k : ℕ) : Option (Task Fn Arg) → Ev Fn Arg → Option (Task Fn Arg) → Prop where
  | same (o : Option (Task Fn Arg)) {e : Ev Fn Arg} (hm : ¬ e.Moves k) : Change k o e o
  | created (fn : Option Fn) (arg : Option Arg) :
      Change k none (.created k fn arg) (some ⟨.ready, none, fn, arg, false, false⟩)
  | freed {t : Task Fn Arg} (hd : t.state = .done) :
      Change k (some t) (.freed k) (some { t with freed := true })
  | yielded {t : Task Fn Arg} (hr : t.state = .running) :
      Change k (some t) (.yielded k) (some { t with state := .ready })
  | blocked {t : Task Fn Arg} (hr : t.state = .running) (j : ℕ) :
      Change k (some t) (.blocked k j) (some { t with state := .waiting, awaiting := some j })
  | woken {t : Task Fn Arg} {j : ℕ} {ws : List ℕ} (hk : k ∈ ws) (hw : t.state = .waiting)
      (ha : t.awaiting = some j) : Change k (some t) (.finished j ws) (some t.woken)
  | finished {t : Task Fn Arg} (hr : t.state = .running) (ws : List ℕ) :
      Change k (some t) (.finished k ws) (some { t with state := .done })
  | resumed {t : Task Fn Arg} (hr : t.state = .ready) :
      Change k (some t) (.resumed k (if t.started then none else some (t.fn, t.arg)))
        (some { t with state := .running, started := true })

variable {A B : Sys Fn Arg} {e : Ev Fn Arg} {k : ℕ}

/-- A step that writes task `j` changes task `k` when `k` is `j`. -/
theorem Change.update {j : ℕ} {u : Task Fn Arg} (hj : Change j (A.task j) e (some u))
    (hm : ∀ i, e.Moves i → j = i) (k : ℕ) :
    Change k (A.task k) e (Function.update A.task j (some u) k) := by
  by_cases ek : k = j
  · subst ek; rw [Function.update_self]; exact hj
  · rw [Function.update_of_ne ek]
    exact .same _ fun h => ek (hm k h).symm

/-- **What a step does to a task.** -/
theorem Step.change (h : Inv A) (hs : Step A e B) (k : ℕ) :
    Change k (A.task k) e (B.task k) := by
  cases hs with
  | create fn arg hc =>
      have hnew : A.task (A.count + 1) = none := by
        by_contra hn
        exact absurd ((h.range _).mp hn).2 (Nat.not_succ_le_self _)
      exact Change.update (hnew ▸ .created fn arg) (fun _ => id) k
  | createFailed | await | run | runReturn | sawState | sawId => exact .same _ id
  | free hc ht hd hf => exact Change.update (ht ▸ .freed hd) (fun _ => False.elim) k
  | yield hc ht hf =>
      exact Change.update (ht ▸ .yielded ((h.running_of_ctl hc).eq ht)) (fun _ => id) k
  | block hc ht hj hn hf =>
      exact Change.update (ht ▸ .blocked ((h.running_of_ctl hc).eq ht) _) (fun _ => id) k
  | @resume who j q t hc hq ht =>
      have hr : A.InState j .ready := (h.ready j).mp (by rw [hq]; exact List.mem_cons_self)
      exact Change.update (ht ▸ .resumed (hr.eq ht)) (fun _ => id) k
  | @finish j t ws o rest hc ht hf hn hw =>
      show Change k (A.task k) _ (A.finishTask j t ws k)
      unfold finishTask
      split
      · next ek => subst ek; rw [ht]; exact .finished ((h.running_of_ctl hc).eq ht) ws
      · next ek =>
          split
          · next hk =>
              obtain ⟨u, hu, hst, ha⟩ := (hw k).mp hk
              rw [hu]
              exact .woken hk hst ha
          · next hk => exact .same _ (not_or.mpr ⟨Ne.symm ek, hk⟩)

/-! ### The lifecycle -/

/-- The edges of the lifecycle of task `k`, each with the step that takes it. -/
inductive Edge (k : ℕ) : Option CoState → Ev Fn Arg → Option CoState → Prop where
  | stays (o : Option CoState) {e : Ev Fn Arg} (hm : ¬ e.Moves k) : Edge k o e o
  | created (fn : Option Fn) (arg : Option Arg) :
      Edge k none (.created k fn arg) (some .ready)
  | resumed (call : Option (Option Fn × Option Arg)) :
      Edge k (some .ready) (.resumed k call) (some .running)
  | yielded : Edge k (some .running) (.yielded k) (some .ready)
  | blocked (j : ℕ) : Edge k (some .running) (.blocked k j) (some .waiting)
  | woken {j : ℕ} {ws : List ℕ} (h : k ∈ ws) :
      Edge k (some .waiting) (.finished j ws) (some .ready)
  | finished (ws : List ℕ) : Edge k (some .running) (.finished k ws) (some .done)

/-- **The lifecycle.**  A step takes task `k` along one of the edges. -/
theorem Step.edge (h : Inv A) (hs : Step A e B) (k : ℕ) : Edge k (A.stateOf k) e (B.stateOf k) := by
  have hch := hs.change h k
  unfold stateOf
  generalize A.task k = o, B.task k = o' at hch
  cases hch with
  | same _ hm => exact .stays _ hm
  | created fn arg => exact .created fn arg
  | freed hd => exact .stays _ id
  | yielded hr => simpa [hr] using .yielded
  | blocked hr j => simpa [hr] using .blocked j
  | woken hk hw ha => simpa [hw] using .woken hk
  | finished hr ws => simpa [hr] using .finished ws
  | resumed hr => simpa [hr] using .resumed _

/-- A done task stays done. -/
theorem Step.done (h : Inv A) (hs : Step A e B) (hd : A.InState k .done) : B.InState k .done := by
  have hedge := hs.edge h k
  rw [stateOf_eq_some.mpr hd] at hedge
  generalize ho : B.stateOf k = o at hedge
  cases hedge
  exact stateOf_eq_some.mp ho

/-- A task becomes done by its own return only. -/
theorem Step.done_of (h : Inv A) (hs : Step A e B) (hd : B.InState k .done)
    (hn : ¬ A.InState k .done) : ∃ ws, e = .finished k ws := by
  have hedge := hs.edge h k
  rw [stateOf_eq_some.mpr hd] at hedge
  generalize ho : A.stateOf k = o at hedge
  cases hedge with
  | stays => exact absurd (stateOf_eq_some.mp ho) hn
  | finished ws => exact ⟨ws, rfl⟩

/-- **How a wait ends.**  A waiting task goes on waiting, or its target has just finished. -/
theorem Step.waitsOn {j : ℕ} (h : Inv A) (hs : Step A e B) (hw : A.WaitsOn k j) :
    B.WaitsOn k j ∨ B.InState k .ready ∧ ∃ ws, e = .finished j ws := by
  obtain ⟨t, ht, hst, ha⟩ := hw
  have hch := hs.change h k
  rw [ht] at hch
  generalize hu : B.task k = o at hch
  cases hch with
  | same => exact .inl ⟨t, hu, hst, ha⟩
  | woken hk _ ha' =>
      obtain rfl := Option.some.inj (ha.symm.trans ha')
      exact .inr ⟨⟨_, hu, rfl⟩, _, rfl⟩
  | freed hn | yielded hn | blocked hn | finished hn | resumed hn => cases hst.symm.trans hn

/-- **A task keeps its function and argument, and a resumption starts it.** -/
theorem Step.keeps {t : Task Fn Arg} (h : Inv A) (hs : Step A e B) (ht : A.task k = some t) :
    ∃ u, B.task k = some u ∧ u.fn = t.fn ∧ u.arg = t.arg ∧
      (u.started = true ↔ t.started = true ∨ ∃ call, e = .resumed k call) := by
  have hch := hs.change h k
  rw [ht] at hch
  generalize hu : B.task k = o at hch
  cases hch with
  | same _ hm =>
      have hr : ¬ ∃ call, e = .resumed k call := by
        rintro ⟨call, rfl⟩
        exact hm rfl
      exact ⟨t, rfl, rfl, rfl, by simp [hr]⟩
  | freed | yielded | blocked | woken | finished => exact ⟨_, rfl, rfl, rfl, by simp [Task.woken]⟩
  | resumed => exact ⟨_, rfl, rfl, rfl, by simp⟩

/-- A wait begins with the waiter's own `co_await`. -/
theorem Step.waitsOn_of {j : ℕ} (h : Inv A) (hs : Step A e B) (hw : B.WaitsOn k j) :
    A.WaitsOn k j ∨ e = .blocked k j := by
  obtain ⟨u, hu, hst, ha⟩ := hw
  have hch := hs.change h k
  rw [hu] at hch
  generalize ht : A.task k = o at hch
  cases hch with
  | same => exact .inl ⟨u, ht, hst, ha⟩
  | blocked _ i =>
      obtain rfl : i = j := Option.some.inj ha
      exact .inr rfl
  | freed hd => cases hst.symm.trans hd
  | created | yielded | woken | finished | resumed => cases hst

/-- A task is freed by `co_free` only. -/
theorem Step.unfreed {t : Task Fn Arg} (h : Inv A) (hs : Step A e B) (ht : A.task k = some t)
    (hf : t.freed = false) (he : e ≠ .freed k) : ∃ u, B.task k = some u ∧ u.freed = false := by
  have hch := hs.change h k
  rw [ht] at hch
  generalize hu : B.task k = o at hch
  cases hch with
  | freed => exact absurd rfl he
  | same | yielded | blocked | woken | finished | resumed => exact ⟨_, rfl, hf⟩

/-- A task appears by its creation. -/
theorem Step.created_of (h : Inv A) (hs : Step A e B) (hA : A.task k = none)
    (hB : B.task k ≠ none) : ∃ fn arg, e = .created k fn arg := by
  have hch := hs.change h k
  rw [hA] at hch
  generalize B.task k = o at hch hB
  cases hch with
  | same => exact absurd rfl hB
  | created fn arg => exact ⟨fn, arg, rfl⟩

/-! ### Control -/

/-- Main's code goes on executing, or gets control back from a loop that found nothing ready. -/
theorem Step.main_of (hs : Step A e B) (hB : B.ctl = .user none) :
    A.ctl = .user none ∨ (∃ who, A.ctl = .loop who) ∧ B.queue = [] := by
  cases hs with
  | create | createFailed | free | await | sawState | sawId => exact .inl hB
  | yield | block | finish | run | resume => cases hB
  | runReturn hc hq hf => exact .inr ⟨⟨_, hc⟩, hq⟩

/-- A turn of the scheduler loop leads to main's code or to a body. -/
theorem Step.user_of_loop {who : Option ℕ} (hs : Step A e B) (hA : A.ctl = .loop who) :
    ∃ w, B.ctl = .user w := by
  cases hs with
  | resume => exact ⟨_, rfl⟩
  | runReturn => exact ⟨_, rfl⟩
  | create _ _ hc | createFailed hc | free hc | yield hc | await hc | block hc | finish hc
  | run hc | sawState hc | sawId hc => rw [hA] at hc; cases hc

/-! ### Steps, by their events -/

theorem Step.created_inv {fn : Option Fn} {arg : Option Arg} (h : Inv A)
    (hs : Step A (.created k fn arg) B) :
    A.task k = none ∧ B.task k = some ⟨.ready, none, fn, arg, false, false⟩ := by
  cases hs with
  | create fn arg hc =>
      refine ⟨?_, Function.update_self _ _ _⟩
      by_contra hn
      exact absurd ((h.range _).mp hn).2 (Nat.not_succ_le_self _)

theorem Step.created_ctl {fn : Option Fn} {arg : Option Arg} (hs : Step A (.created k fn arg) B) :
    B.ctl = A.ctl := by
  cases hs with
  | create => rfl

theorem Step.runCalled_ctl {who : Option ℕ} (hs : Step A (.runCalled who) B) :
    B.ctl = .loop who := by
  cases hs with
  | run => rfl

theorem Step.runReturned_ctl {who : Option ℕ} (hs : Step A (.runReturned who) B) :
    B.ctl = .user who := by
  cases hs with
  | runReturn => rfl

theorem Step.resumed_ctl {call : Option (Option Fn × Option Arg)}
    (hs : Step A (.resumed k call) B) : B.ctl = .user (some k) := by
  cases hs with
  | resume => rfl

theorem Step.finished_inv {ws : List ℕ} (hs : Step A (.finished k ws) B) :
    A.ctl = .user (some k) ∧ B.InState k .done ∧ ∃ o, B.ctl = .loop o := by
  cases hs with
  | finish hc ht hf hn hw => exact ⟨hc, ⟨_, if_pos rfl, rfl⟩, _, rfl⟩

theorem Step.resumed_inv {call : Option (Option Fn × Option Arg)}
    (hs : Step A (.resumed k call) B) :
    ∃ t q, A.task k = some t ∧ A.queue = k :: q ∧
      call = if t.started then none else some (t.fn, t.arg) := by
  cases hs with
  | resume hc hq ht => exact ⟨_, _, ht, hq, rfl⟩

/-- Only what is ready is resumed. -/
theorem Step.ready_of_resumed {call : Option (Option Fn × Option Arg)} (h : Inv A)
    (hs : Step A (.resumed k call) B) : A.InState k .ready := by
  obtain ⟨t, q, -, hq, -⟩ := hs.resumed_inv
  exact (h.ready k).mp (by rw [hq]; exact List.mem_cons_self)

theorem Step.blocked_inv {j : ℕ} (hs : Step A (.blocked k j) B) :
    A.ctl = .user (some k) ∧ B.WaitsOn k j ∧ ¬ A.InState j .done := by
  cases hs with
  | block hc ht hj hn hf =>
      exact ⟨hc, ⟨_, Function.update_self _ _ _, rfl, rfl⟩, fun hd => hn (hd.eq hj)⟩

theorem Step.yielded_inv (hs : Step A (.yielded k) B) : A.ctl = .user (some k) := by
  cases hs with
  | yield hc ht hf => exact hc

theorem Step.yielded_ctl (hs : Step A (.yielded k) B) : ∃ o, B.ctl = .loop o := by
  cases hs with
  | yield => exact ⟨_, rfl⟩

theorem Step.blocked_ctl {j : ℕ} (hs : Step A (.blocked k j) B) : ∃ o, B.ctl = .loop o := by
  cases hs with
  | block => exact ⟨_, rfl⟩

theorem Step.awaited_inv {j : ℕ} (hs : Step A (.awaited k j) B) : A.InState j .done := by
  cases hs with
  | await hc hj => exact hj

theorem Step.awaited_ctl {j : ℕ} (hs : Step A (.awaited k j) B) : B.ctl = .user (some k) := by
  cases hs with
  | await hc hj => exact hc

/-! ### What is left to do -/

/-- Task `k` has been created and is not done. -/
def Sys.Unfinished (A : Sys Fn Arg) (k : ℕ) : Prop := ∃ t, A.task k = some t ∧ t.state ≠ .done

/-- A task is unfinished from its creation to its return. -/
theorem Step.unfinished_iff (h : Inv A) (hs : Step A e B) :
    B.Unfinished k ↔
      (A.Unfinished k ∧ ∀ ws, e ≠ .finished k ws) ∨ ∃ fn arg, e = .created k fn arg := by
  constructor
  · rintro ⟨u, hu, hn⟩
    cases ht : A.task k with
    | none => exact .inr (hs.created_of h ht (by simp [hu]))
    | some t =>
        refine .inl ⟨⟨t, ht, fun hd => hn ((hs.done h ⟨t, ht, hd⟩).eq hu)⟩, ?_⟩
        rintro ws rfl
        exact hn (hs.finished_inv.2.1.eq hu)
  · rintro (⟨⟨t, ht, hn⟩, he⟩ | ⟨fn, arg, rfl⟩)
    · obtain ⟨u, hu, -⟩ := hs.keeps h ht
      refine ⟨u, hu, fun hd => ?_⟩
      obtain ⟨ws, rfl⟩ := hs.done_of h ⟨u, hu, hd⟩ fun hA => hn (hA.eq ht)
      exact he ws rfl
    · exact ⟨_, (hs.created_inv h).2, by simp⟩

end CCoroutine.Ideal
