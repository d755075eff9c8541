import CCoroutine.Support.Runs

/-!
# Support — RoundRobin

A queue whose members each have a number of turns left.  The first member is served; it goes to the
end while it has turns left and leaves the queue otherwise.

A round serves the members in the order of the queue and keeps their order (`Serve.round`).  So the
members that want at least `r` more turns are served in round `r`, in their original order, until
the queue is empty (`serve_all`).
-/

namespace Support

variable {α : Type}

/-- One turn. -/
inductive Serve : List (α × ℕ) → α → List (α × ℕ) → Prop where
  | last (x : α) (q : List (α × ℕ)) : Serve ((x, 0) :: q) x q
  | again (x : α) (k : ℕ) (q : List (α × ℕ)) : Serve ((x, k + 1) :: q) x (q ++ [(x, k)])

/-- Who is left after a round, with the turns left then. -/
def nextRound : List (α × ℕ) → List (α × ℕ)
  | [] => []
  | (_, 0) :: q => nextRound q
  | (x, k + 1) :: q => (x, k) :: nextRound q

/-- **One round**: every member gets a turn. -/
theorem Serve.round (q q' : List (α × ℕ)) :
    Steps Serve (q ++ q') (q.map Prod.fst) (q' ++ nextRound q) := by
  induction q generalizing q' with
  | nil => simpa [nextRound] using Steps.refl q'
  | cons y q ih =>
      obtain ⟨x, k⟩ := y
      cases k with
      | zero => exact .more (.last x _) (ih q')
      | succ k =>
          refine .more (.again x k _) ?_
          have := ih (q' ++ [(x, k)])
          simpa [nextRound] using this

/-- The turns of `n` rounds. -/
def rounds (q : List (α × ℕ)) (n : ℕ) : List α :=
  (List.range n).flatMap fun r => (q.filter fun y => r ≤ y.2).map Prod.fst

theorem filter_nextRound (q : List (α × ℕ)) (r : ℕ) :
    ((nextRound q).filter fun y => r ≤ y.2).map Prod.fst =
      (q.filter fun y => r + 1 ≤ y.2).map Prod.fst := by
  induction q with
  | nil => rfl
  | cons y q ih =>
      obtain ⟨x, k⟩ := y
      cases k with
      | zero => simpa [nextRound] using ih
      | succ k =>
          by_cases h : r ≤ k
          · simpa [nextRound, h] using ih
          · simpa [nextRound, h] using ih

theorem rounds_succ (q : List (α × ℕ)) (n : ℕ) :
    rounds q (n + 1) = q.map Prod.fst ++ rounds (nextRound q) n := by
  have hall : (q.filter fun y => 0 ≤ y.2) = q := List.filter_eq_self.mpr (by simp)
  simp only [rounds, List.range_succ_eq_map, List.flatMap_cons, List.flatMap_map, hall,
    filter_nextRound]

theorem lt_of_mem_nextRound {q : List (α × ℕ)} {y : α × ℕ} (h : y ∈ nextRound q) :
    ∃ z ∈ q, z.2 = y.2 + 1 := by
  induction q with
  | nil => cases h
  | cons w q ih =>
      obtain ⟨x, k⟩ := w
      cases k with
      | zero =>
          obtain ⟨z, hz, e⟩ := ih h
          exact ⟨z, List.mem_cons_of_mem _ hz, e⟩
      | succ k =>
          rcases List.mem_cons.mp h with rfl | h
          · exact ⟨_, List.mem_cons_self, rfl⟩
          · obtain ⟨z, hz, e⟩ := ih h
            exact ⟨z, List.mem_cons_of_mem _ hz, e⟩

/-- **All turns**, round by round, when `n` rounds are enough for everyone. -/
theorem serve_all {q : List (α × ℕ)} {n : ℕ} (h : ∀ y ∈ q, y.2 < n) :
    Steps Serve q (rounds q n) [] := by
  induction n generalizing q with
  | zero =>
      cases q with
      | nil => exact .refl []
      | cons y q => exact absurd (h y List.mem_cons_self) (Nat.not_lt_zero _)
  | succ n ih =>
      have hround := Serve.round q []
      rw [List.append_nil, List.nil_append] at hround
      rw [rounds_succ]
      refine hround.trans (ih fun y hy => ?_)
      obtain ⟨z, hz, e⟩ := lt_of_mem_nextRound hy
      have := h z hz
      omega

end Support
