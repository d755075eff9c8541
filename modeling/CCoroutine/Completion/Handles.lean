import CCoroutine.Refinement.Runs
import CCoroutine.Safety.Table

/-!
# Completion — Handles

A handle stays good until it is freed: a step other than `co_free` keeps the coroutine at an
address, with its id and its function, whatever else is created.
-/

namespace CCoroutine
open CCoroutine.Ideal (Task Sys Ev)

namespace State

variable {Fn Arg : Type} {s s' : State Fn Arg} {a : Act Fn Arg} {x : Addr}

/-- Slots of `S.all` keep their contents. -/
theorem addrOf_mono (h : s.all <+: s'.all) {k : ℕ} (hk : s.addrOf k = some x) :
    s'.addrOf k = some x := by
  unfold addrOf at hk ⊢
  split at hk
  · cases hk
  · next h0 =>
      obtain ⟨l, hl⟩ := h
      obtain ⟨hlt, -⟩ := List.getElem?_eq_some_iff.mp hk
      rw [if_neg h0, ← hl, List.getElem?_append_left hlt, hk]

theorem all_mono (hs : s.step a = .ok s') : s.all <+: s'.all :=
  step_all hs ▸ List.prefix_append _ _

theorem event_ne_freed (ha : ∀ co, a ≠ .free co) (k : ℕ) : s.event a ≠ .freed k := by
  intro he
  obtain ⟨co, rfl⟩ := causes_of_event he
  exact ha co rfl

/-- **A handle stays good.** -/
theorem InvM.handle_step (h : s.InvM) (hs : StepM s a s') (ha : ∀ co, a ≠ .free co)
    (hx : s.live x = true) : s'.live x = true ∧ s'.idOf x = s.idOf x := by
  obtain ⟨hstep, hi⟩ := h.refines hs
  obtain ⟨u, hu, hf⟩ := hstep.unfreed h.ideal (h.task_live hx) rfl (event_ne_freed ha _)
  have haddr := addrOf_mono (all_mono hs.1.2) (h.addr.registered x hx)
  rcases hi.addr.taskAt_cases hu with ⟨r, -, rfl⟩ | ⟨y, hy, hid, -⟩
  · cases hf
  · -- the unfreed coroutine with this id is the one in its slot
    have := hi.addr.registered y hy
    rw [hid, haddr] at this
    cases this
    exact ⟨hy, hid⟩

end State

end CCoroutine
