import CCoroutine.Clients.Barrier.Meeting

/-!
# Clients — Barrier — Tests

The checks of `tests/test_barrier.c` hold for every number of workers (`Work.barrier_tests_pass`):
in a complete log every worker has had the last word on its own entries (`Work.completes_note`).
-/

namespace CCoroutine.Clients
open Support (Call Script Turns)

namespace Work

variable {τ : Type} {w : Work τ} {n : ℕ}

namespace Phased

variable {P q : ℕ} {log : List (ℕ × ℕ)}

/-- In a complete log, each worker begins a phase once. -/
theorem perm (h : Phased n P log) (hall : ∀ id < n, ∀ ph ≤ P, (id, ph) ∈ log) (hq : q ≤ P) :
    ((log.filter fun e => e.2 = q).map Prod.fst).Perm (List.range n) := by
  refine (List.perm_ext_iff_of_nodup ?_ List.nodup_range).mpr ?_
  · refine (h.nodup.filter _).map_on ?_
    intro x hx y hy e
    have hx := of_decide_eq_true (List.mem_filter.mp hx).2
    have hy := of_decide_eq_true (List.mem_filter.mp hy).2
    exact Prod.ext e (hx.trans hy.symm)
  · intro id
    simp only [List.mem_map, List.mem_filter, decide_eq_true_eq, Prod.exists, exists_and_right,
      exists_eq_right, List.mem_range]
    exact ⟨fun hm => (h.range _ hm).1, fun hid => hall id hid q hq⟩

/-- A worker begins its phases in order. -/
theorem mem_of_lt (h : Phased n P log) {l₁ l₂ : List (ℕ × ℕ)} {id ph : ℕ}
    (hlog : log = l₁ ++ (id, ph) :: l₂) (hid : id < n) (hq : q < ph) : (id, q) ∈ l₁ := by
  induction ph generalizing l₁ l₂ with
  | zero => exact absurd hq (Nat.not_lt_zero q)
  | succ ph ih =>
      have hmem := h.ordered l₁ id ph l₂ hlog id hid
      rcases Nat.lt_succ_iff_lt_or_eq.mp hq with hlt | rfl
      · obtain ⟨l, l', rfl⟩ := List.append_of_mem hmem
        rw [List.append_assoc, List.cons_append] at hlog
        exact List.mem_append_left _ (ih hlog hlt)
      · exact hmem

/-- What a note makes true stays so, if no later note of the worker and no other worker's note makes
it false. -/
theorem replay (h : Phased n P log) (Q : τ → Prop) {id : ℕ} (hid : id < n) (hmem : (id, q) ∈ log)
    (hset : ∀ d, Q (w.note id q d))
    (hkeep : ∀ e ph d, e ≠ id ∨ q < ph → ph ≤ P → Q d → Q (w.note e ph d)) (d : τ) :
    Q (w.replay log d) := by
  obtain ⟨l₁, l₂, rfl⟩ := List.append_of_mem hmem
  have hlater : ∀ e ∈ l₂, (e.1 ≠ id ∨ q < e.2) ∧ e.2 ≤ P := by
    rintro ⟨e, ph⟩ he
    refine ⟨?_, (h.range (e, ph) (by simp [he])).2⟩
    by_contra hn
    obtain ⟨rfl, hle⟩ : e = id ∧ ph ≤ q := by simpa using hn
    have hdisj := List.nodup_append.mp h.nodup
    rcases lt_or_eq_of_le hle with hlt | rfl
    · exact hdisj.2.2 _ (h.mem_of_lt rfl hid hlt) _ (List.mem_cons_of_mem _ he) rfl
    · exact (List.nodup_cons.mp hdisj.2.1).1 he
  rw [Work.replay, List.foldl_append, List.foldl_cons]
  exact List.foldlRecOn l₂ _ (hset _) fun d hd e he =>
    hkeep _ _ _ (hlater e he).1 (hlater e he).2 hd

end Phased

theorem replay_t4Worker (log : List (ℕ × ℕ)) (d : ℕ × List ℕ) :
    t4Worker.replay log d = (d.1 + (log.filter fun e => e.2 = 0).length,
      d.2 ++ (log.filter fun e => e.2 ≠ 0).map Prod.fst) := by
  induction log generalizing d with
  | nil => simp [replay]
  | cons e log ih =>
      rw [show t4Worker.replay (e :: log) d =
        t4Worker.replay log (t4Worker.note e.1 e.2 d) from rfl, ih]
      by_cases he : e.2 = 0
      · simp [t4Worker, he, Nat.add_assoc, Nat.add_comm 1]
      · simp [t4Worker, he]

theorem le_foldl_add (l : List ℕ) (acc : ℕ) : acc ≤ l.foldl (· + ·) acc := by
  induction l generalizing acc with
  | nil => exact le_rfl
  | cons x l ih => exact (Nat.le_add_right acc x).trans (ih _)

theorem le_accumulate (acc iters : ℕ) : acc ≤ accumulate acc iters := le_foldl_add _ _

theorem accumulate_pos {iters : ℕ} (h : 2 ≤ iters) : 0 < accumulate 0 iters := by
  obtain ⟨k, rfl⟩ := Nat.exists_eq_add_of_le h
  rw [accumulate, List.range_add, List.foldl_append]
  exact Nat.zero_lt_one.trans_le (le_foldl_add _ _)

/-- Two arrays, one written in front of the barrier and one behind it. -/
theorem completes_pair {w : Work ((ℕ → ℕ) × (ℕ → ℕ))} (hw : w.wait = barrierWait ∨ w.wait = cobWait)
    (hn : 0 < n) (L : Launch (w.bodies n)) (d₀ : (ℕ → ℕ) × (ℕ → ℕ)) (hP : w.phases = 1)
    {a b : ℕ → ℕ} (hnote : ∀ id ph d, w.note id ph d =
      if ph = 0 then (Function.update d.1 id (a id), d.2)
      else (d.1, Function.update d.2 id (b id))) :
    L.Completes w.script ⟨barrierInit n, d₀⟩ fun m =>
      ∀ id < n, m.data.1 id = a id ∧ m.data.2 id = b id := by
  refine (completes_phased hw (hP ▸ Nat.one_lt_two_pow (by decide)) hn L d₀).imp ?_
  rintro m ⟨-, log, hm, hlog, hall⟩ id hid
  rw [hm]
  constructor
  · refine hlog.replay (w := w) (fun d => d.1 id = a id) hid (hall id hid 0 (Nat.zero_le _))
      ?_ ?_ d₀
    · intro d
      simp [hnote]
    · intro e ph d he _ hd
      rcases eq_or_ne ph 0 with rfl | hph
      · have hne : id ≠ e := (he.resolve_right (lt_irrefl 0)).symm
        simpa [hnote, Function.update_of_ne hne] using hd
      · simpa [hnote, hph] using hd
  · refine hlog.replay (w := w) (fun d => d.2 id = b id) hid (hall id hid 1 hP.ge) ?_ ?_ d₀
    · intro d
      simp [hnote]
    · intro e ph d he hle hd
      rcases eq_or_ne ph 0 with rfl | hph
      · simpa [hnote] using hd
      · have hne : id ≠ e := (he.resolve_right (by omega)).symm
        simpa [hnote, hph, Function.update_of_ne hne] using hd

/-- When the workers of `w` are done, every worker has had the last word on what its note for phase
`q` makes true. -/
theorem completes_note (hw : w.wait = barrierWait ∨ w.wait = cobWait) (hP : w.phases < 2 ^ 31)
    (hn : 0 < n) (L : Launch (w.bodies n)) (d₀ : τ) {q : ℕ} (hq : q ≤ w.phases) (Q : ℕ → τ → Prop)
    (hset : ∀ id d, Q id (w.note id q d))
    (hkeep : ∀ id e ph d, e ≠ id ∨ q < ph → ph ≤ w.phases → Q id d → Q id (w.note e ph d)) :
    L.Completes w.script ⟨barrierInit n, d₀⟩ fun m => ∀ id < n, Q id m.data := by
  refine (completes_phased hw hP hn L d₀).imp ?_
  rintro m ⟨-, log, hm, hlog, hall⟩ id hid
  rw [hm]
  exact hlog.replay (Q id) hid (hall id hid q hq) (hset id) (hkeep id) d₀

/-- **The barrier tests.**  Run with any number of workers instead of the number it is written for,
every test of `tests/test_barrier.c` ends, and what it checks holds. -/
theorem barrier_tests_pass (hn : 0 < n) :
    (∀ L : Launch (t1Worker.bodies n), L.Completes t1Worker.script ⟨barrierInit n, 0, 0⟩ fun m =>
      ∀ id < n, m.data.1 id = 1 ∧ m.data.2 id = 1) ∧
    (∀ L : Launch (t2Worker.bodies n), L.Completes t2Worker.script ⟨barrierInit n, 0⟩ fun m =>
      ∀ id < n, m.data id = 3) ∧
    (∀ L : Launch (t3Worker.bodies n), L.Completes t3Worker.script ⟨barrierInit n, 0⟩ fun m =>
      m.data = 1) ∧
    (∀ L : Launch (t4Worker.bodies n), L.Completes t4Worker.script ⟨barrierInit n, 0, []⟩ fun m =>
      m.data.1 = n ∧ m.data.2.Perm (List.range n)) ∧
    (∀ L : Launch (t5Worker.bodies n), L.Completes t5Worker.script ⟨barrierInit n, 0⟩ fun m =>
      ∀ id < n, m.data id = 1) ∧
    ∀ L : Launch (t6Worker.bodies n), L.Completes t6Worker.script ⟨barrierInit n, 0, 0⟩ fun m =>
      ∀ id < n, 0 < m.data.1 id ∧ m.data.1 id ≤ m.data.2 id := by
  refine ⟨fun L => ?_, fun L => ?_, fun L => ?_, fun L => ?_, fun L => ?_, fun L => ?_⟩
  · exact completes_pair (.inl rfl) hn L _ rfl fun _ _ _ => rfl
  · refine completes_note (.inl rfl) (by decide) hn L 0 (q := 2) le_rfl (fun id d => d id = 3) ?_ ?_
    · intro id d
      exact Function.update_self id 3 d
    · rintro id e ph d (he | hlt) hph hd
      · exact (Function.update_of_ne he.symm _ d).trans hd
      · exact absurd hph hlt.not_ge
  · refine (completes_note (.inl rfl) (by decide) hn L 0 (q := 1) le_rfl (fun id d => d = 1)
      ?_ ?_).imp ?_
    · intro id d
      rfl
    · intro id e ph d _ _ hd
      simp [t3Worker, hd]
    · intro m hm
      exact hm 0 hn
  · refine (completes_phased (.inl rfl) (by decide) hn L _).imp ?_
    rintro m ⟨-, log, hm, hlog, hall⟩
    rw [hm, replay_t4Worker, List.nil_append, Nat.zero_add]
    constructor
    · have := (hlog.perm hall (Nat.zero_le 1)).length_eq
      simpa using this
    · refine .trans (.of_eq ?_) (hlog.perm hall (le_refl 1))
      refine congrArg _ (List.filter_congr fun e he => ?_)
      have hle : e.2 ≤ 1 := (hlog.range e he).2
      refine decide_eq_decide.mpr ?_
      exact Nat.pos_iff_ne_zero.symm.trans ⟨fun h => le_antisymm hle h, fun h => h.ge⟩
  · refine completes_note (.inl rfl) (by decide) hn L 0 (q := 1) le_rfl (fun id d => d id = 1) ?_ ?_
    · intro id d
      exact Function.update_self id 1 d
    · rintro id e ph d (he | hlt) hph hd
      · rcases eq_or_ne ph 0 with rfl | h0
        · exact hd
        · simpa [t5Worker, h0, Function.update_of_ne he.symm] using hd
      · exact absurd hph hlt.not_ge
  · refine (completes_pair (.inl rfl) hn L _ rfl fun _ _ _ => rfl).imp ?_
    intro m hm id hid
    obtain ⟨h₁, h₂⟩ := hm id hid
    rw [h₁, h₂]
    exact ⟨accumulate_pos (by omega), le_accumulate _ _⟩

/-- `test_barrier_large`. -/
theorem barrier_tests_pass_large :
    (Launch.first (t5Worker.bodies 32) (by decide)).Completes t5Worker.script
      ⟨barrierInit 32, 0⟩ fun m => ∀ id < 32, m.data id = 1 :=
  (barrier_tests_pass (by decide)).2.2.2.2.1 _

end Work

end CCoroutine.Clients
