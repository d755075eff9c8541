import Mathlib.Data.List.ReduceOption

/-!
# Support — Queues

Queues of any kind under sequences of operations: `run` collects what the pops return, and stops
when a push is refused.

An implementation whose operations are matched, one by one, by those of another runs as that one
does (`run_simulates`).  The plain list (`fifo`) is the queue to compare with: whatever has been
pushed has been popped, in this order, or is still there (`fifo_conserves`).
-/

namespace Support

inductive QueueOp (α : Type) where
  | push (x : α)
  | pop

/-- What is pushed, in order. -/
def QueueOp.pushed {α : Type} : List (QueueOp α) → List α
  | [] => []
  | .push x :: ops => x :: pushed ops
  | .pop :: ops => pushed ops

/-- The operations of a queue with the states `Q`.  A push may be refused; a pop returns `none`
when there is nothing to return. -/
structure Queue (Q α : Type) where
  push : Q → α → Option Q
  pop : Q → Option α × Q

namespace Queue

variable {P Q α : Type}

/-- What the pops return and the state at the end, when no push is refused. -/
def run (I : Queue Q α) : Q → List (QueueOp α) → Option (List (Option α) × Q)
  | q, [] => some ([], q)
  | q, .push x :: ops => (I.push q x).bind fun q' => run I q' ops
  | q, .pop :: ops => (run I (I.pop q).2 ops).map fun r => ((I.pop q).1 :: r.1, r.2)

section

variable {I : Queue P α} {J : Queue Q α} {p p' : P} {q : Q} {os : List (Option α)}
  {ops : List (QueueOp α)}

theorem run_push {x : α} (h : I.push p x = some p') : I.run p (.push x :: ops) = I.run p' ops := by
  rw [run, h, Option.bind_some]

theorem run_pop_eq_some (h : I.run p (.pop :: ops) = some (os, p')) :
    ∃ os', os = (I.pop p).1 :: os' ∧ I.run (I.pop p).2 ops = some (os', p') := by
  rw [run, Option.map_eq_some_iff] at h
  obtain ⟨⟨os', q⟩, hrun, hr⟩ := h
  cases hr
  exact ⟨os', rfl, hrun⟩

/-- **A sequence runs to its end** when none of its pushes is refused where it is made. -/
theorem exists_run (h : ∀ l x r, ops = l ++ .push x :: r → ∀ os p', I.run p l = some (os, p') →
    I.push p' x ≠ none) : ∃ os p', I.run p ops = some (os, p') := by
  induction ops generalizing p with
  | nil => exact ⟨[], p, rfl⟩
  | cons op ops ih =>
      cases op with
      | push x =>
          obtain ⟨p₁, hp⟩ := Option.ne_none_iff_exists'.mp (h [] x ops rfl [] p rfl)
          rw [run_push hp]
          refine ih fun l y r e os p' hrun => ?_
          refine h (.push x :: l) y r (by rw [e]; rfl) os p' ?_
          rw [run_push hp, hrun]
      | pop =>
          obtain ⟨os, p', hrun⟩ := ih (p := (I.pop p).2) fun l y r e os p' hrun =>
            h (.pop :: l) y r (by rw [e]; rfl) ((I.pop p).1 :: os) p' (by rw [run, hrun]; rfl)
          exact ⟨(I.pop p).1 :: os, p', by rw [run, hrun]; rfl⟩

/-- **Simulation.**  When `J` matches every push and every pop of `I`, it matches whole runs. -/
theorem run_simulates {R : P → Q → Prop}
    (hpush : ∀ p q x p', R p q → I.push p x = some p' → ∃ q', J.push q x = some q' ∧ R p' q')
    (hpop : ∀ p q, R p q → (I.pop p).1 = (J.pop q).1 ∧ R (I.pop p).2 (J.pop q).2) (h : R p q)
    (hrun : I.run p ops = some (os, p')) : ∃ q', J.run q ops = some (os, q') ∧ R p' q' := by
  induction ops generalizing p q os with
  | nil =>
      cases hrun
      exact ⟨q, rfl, h⟩
  | cons op ops ih =>
      cases op with
      | push x =>
          obtain ⟨p₁, hp, hrest⟩ := Option.bind_eq_some_iff.mp hrun
          obtain ⟨q₁, hq, h₁⟩ := hpush p q x p₁ h hp
          obtain ⟨q', hrun', h'⟩ := ih h₁ hrest
          exact ⟨q', by rw [run_push hq, hrun'], h'⟩
      | pop =>
          obtain ⟨os', rfl, hrest⟩ := run_pop_eq_some hrun
          obtain ⟨hres, h₁⟩ := hpop p q h
          obtain ⟨q', hrun', h'⟩ := ih h₁ hrest
          exact ⟨q', by rw [run, hrun', hres]; rfl, h'⟩

end

/-! ### The plain list -/

/-- Append at the end, remove from the front. -/
def fifo (α : Type) : Queue (List α) α where
  push l x := some (l ++ [x])
  pop l := (l.head?, l.tail)

/-- **Nothing is lost, duplicated or reordered.** -/
theorem fifo_conserves {ops : List (QueueOp α)} {l l' : List α} {os : List (Option α)}
    (h : (fifo α).run l ops = some (os, l')) :
    l ++ QueueOp.pushed ops = os.reduceOption ++ l' := by
  induction ops generalizing l os with
  | nil =>
      cases h
      simp [QueueOp.pushed]
  | cons op ops ih =>
      cases op with
      | push x =>
          have := ih (show (fifo α).run (l ++ [x]) ops = some (os, l') from h)
          rw [← this, QueueOp.pushed, List.append_assoc]
          rfl
      | pop =>
          obtain ⟨os', rfl, hrun⟩ := run_pop_eq_some h
          have := ih hrun
          cases l with
          | nil => simpa [fifo, QueueOp.pushed] using this
          | cons x xs => simpa [fifo, QueueOp.pushed] using this

end Queue

end Support
