import CCoroutine.Clients.Barrier.Meeting

/-!
# Clients — Barrier — Once

Workers that meet once, at a barrier that expects another number than theirs, all get to the end
exactly when their number is a multiple of that one; otherwise `co_run` does not return
(`Work.meet_once`).
-/

namespace CCoroutine.Clients
open Support (Call Script Turns)

namespace Work

variable {τ : Type} {w : Work τ} {n : ℕ}

namespace Place

/-- In front of the barrier. -/
def early : Place → Bool
  | begins _ r | delays _ r _ => r != 0
  | waits _ _ _ => false

/-- Where a worker can be in generation `g`, when there is one barrier. -/
def OkOnce (g : ℕ) : Place → Prop
  | begins _ r | delays _ r _ => r ≤ 1
  | waits _ r gen => r = 0 ∧ gen ≤ g

end Place

structure Once (T n : ℕ) (m : Mem τ) (line : List (ℕ × Place)) : Prop where
  total : m.gate.total = T
  lt : m.gate.arrived < T
  arrived : m.gate.arrived = line.countP fun x => x.2.waitsAt m.gate.generation
  /-- Every worker has passed, or has arrived, or is in front of the barrier. -/
  count : m.gate.generation * T + m.gate.arrived + line.countP (fun x => x.2.early) = n
  ok : ∀ x ∈ line, x.2.OkOnce m.gate.generation

namespace Once

variable {T : ℕ} {m : Mem τ} {line line' rest : List (ℕ × Place)} {i e r : ℕ} {k : Place}

theorem perm (h : Once T n m line) (hp : line'.Perm line) : Once T n m line' where
  total := h.total
  lt := h.lt
  arrived := h.arrived.trans (hp.countP_eq _).symm
  count := by rw [hp.countP_eq]; exact h.count
  ok x hx := h.ok x (hp.mem_iff.mp hx)

/-- A worker goes from one place to another, and stays on its side of the barrier. -/
theorem move (h : Once T n m ((i, k) :: rest)) (k' : Place) (he : k'.early = k.early)
    (hk : k.waitsAt m.gate.generation = false) (hk' : k'.waitsAt m.gate.generation = false)
    (hok : k'.OkOnce m.gate.generation) : Once T n m ((i, k') :: rest) where
  total := h.total
  lt := h.lt
  arrived := by simpa [hk, hk'] using h.arrived
  count := by simpa [List.countP_cons, he] using h.count
  ok := by
    intro x hx
    rcases List.mem_cons.mp hx with rfl | hx
    · exact hok
    · exact h.ok x (List.mem_cons_of_mem _ hx)

/-- A worker past the barrier leaves. -/
theorem last (h : Once T n m ((i, .begins e 0) :: rest)) (data : τ) :
    Once T n { m with data := data } rest where
  total := h.total
  lt := h.lt
  arrived := by simpa [Place.waitsAt] using h.arrived
  count := by simpa [Place.early] using h.count
  ok x hx := h.ok x (List.mem_cons_of_mem _ hx)

theorem closed (h : Once T n m ((i, .begins e 1) :: rest)) (hT : m.gate.arrived + 1 ≠ T)
    (data : τ) :
    Once T n ⟨{ m.gate with arrived := m.gate.arrived + 1 }, data⟩
      ((i, .waits e 0 m.gate.generation) :: rest) where
  total := h.total
  lt := lt_of_le_of_ne h.lt hT
  arrived := by simpa [Place.waitsAt] using h.arrived
  count := by
    have hcount := h.count
    simp only [List.countP_cons, Place.early] at hcount ⊢
    simpa [Nat.add_assoc, Nat.add_comm 1] using hcount
  ok := by
    intro x hx
    rcases List.mem_cons.mp hx with rfl | hx
    · exact ⟨rfl, le_rfl⟩
    · exact h.ok x (List.mem_cons_of_mem _ hx)

theorem opened (h : Once T n m ((i, .begins e 1) :: rest)) (hT : m.gate.arrived + 1 = T)
    (data : τ) :
    Once T n ⟨{ m.gate with arrived := 0, generation := m.gate.generation + 1 }, data⟩
      ((i, .begins e 0) :: rest) where
  total := h.total
  lt := by
    show 0 < T
    omega
  arrived := by
    symm
    refine List.countP_eq_zero.mpr ?_
    intro x hx
    rcases List.mem_cons.mp hx with rfl | hx
    · simp [Place.waitsAt]
    · have hok := h.ok x (List.mem_cons_of_mem _ hx)
      cases hk : x.2 with
      | begins | delays => simp [Place.waitsAt]
      | waits id r gen =>
          rw [hk] at hok
          have : gen ≤ m.gate.generation := hok.2
          simp only [Place.waitsAt, beq_iff_eq]
          omega
  count := by
    have hcount := h.count
    rw [List.countP_cons_of_pos rfl] at hcount
    rw [List.countP_cons_of_neg (by simp [Place.early])]
    show (m.gate.generation + 1) * T + 0 + _ = n
    rw [Nat.add_mul]
    omega
  ok := by
    intro x hx
    rcases List.mem_cons.mp hx with rfl | hx
    · exact Nat.zero_le 1
    · have hok := h.ok x (List.mem_cons_of_mem _ hx)
      cases hk : x.2 with
      | begins | delays =>
          rw [hk] at hok
          exact hok
      | waits id r gen =>
          rw [hk] at hok
          exact ⟨hok.1, hok.2.trans (Nat.le_succ _)⟩

theorem proceed (h : Once T n m ((i, .begins e r) :: rest)) {go : Mem τ → Mem τ × Call Place}
    (hgo : Once T n m ((i, .begins e r) :: rest) →
      Once T n (go m).1 (Turns.settle i rest (go m).2)) :
    Once T n (w.proceed e r go m).1 (Turns.settle i rest (w.proceed e r go m).2) := by
  unfold Work.proceed
  split
  · exact hgo h
  · exact (h.move (.delays e r _) rfl rfl rfl (h.ok _ List.mem_cons_self)).perm
      (List.perm_append_singleton _ _)

/-- The barrier does not open more often than there are workers. -/
theorem next_le (h : Once T n m ((i, .begins e 1) :: rest)) : m.gate.generation + 1 ≤ n := by
  have hcount := h.count
  rw [List.countP_cons_of_pos rfl] at hcount
  have hle : m.gate.generation ≤ m.gate.generation * T :=
    Nat.le_mul_of_pos_right _ (Nat.zero_lt_of_lt h.lt)
  omega

theorem arrive (hw : w.wait = barrierWait ∨ w.wait = cobWait) (hn : n < 2 ^ 31)
    (h : Once T n m ((i, .begins e r) :: rest)) :
    Once T n (w.arrive e r m).1 (Turns.settle i rest (w.arrive e r m).2) := by
  have hr : r ≤ 1 := h.ok _ List.mem_cons_self
  rcases Nat.le_one_iff_eq_zero_or_eq_one.mp hr with rfl | rfl
  · exact h.last _
  · have hwait := wait_eq hw (b := m.gate) (by rw [h.total]; exact h.lt) (h.next_le.trans_lt hn)
    by_cases hT : m.gate.arrived + 1 = T
    · rw [if_pos (hT.trans h.total.symm)] at hwait
      rw [Work.arrive, hwait]
      exact (h.opened hT _).proceed fun h => h.last _
    · rw [if_neg fun e => hT (e.trans h.total)] at hwait
      rw [Work.arrive, hwait]
      exact (h.closed hT _).perm (List.perm_append_singleton _ _)

theorem kept (hw : w.wait = barrierWait ∨ w.wait = cobWait) (hn : n < 2 ^ 31) :
    Turns.Kept w.script (Once T n) := by
  intro m i k rest fin _ h
  have hok := h.ok _ List.mem_cons_self
  cases k with
  | begins e r => exact h.proceed fun h => h.arrive hw hn
  | delays e r d =>
      cases d with
      | zero => exact (h.move (.begins e r) rfl rfl rfl hok).arrive hw hn
      | succ d =>
          exact (h.move (.delays e r d) rfl rfl rfl hok).perm
            (List.perm_append_singleton _ _)
  | waits e r gen =>
      obtain ⟨rfl, -⟩ : r = 0 ∧ gen ≤ m.gate.generation := hok
      by_cases hg : m.gate.generation = gen
      · simp only [script, if_pos hg]
        exact h.perm (List.perm_append_singleton _ _)
      · have hwait : Place.waitsAt m.gate.generation (.waits e 0 gen) = false := by
          simpa [Place.waitsAt] using Ne.symm hg
        simp only [script, if_neg hg]
        exact (h.move (.begins e 0) rfl hwait rfl (Nat.zero_le 1)).proceed
          fun h => h.arrive hw hn

theorem start (hP : w.phases = 1) (hT : 0 < T) (L : Launch (w.bodies n)) (d₀ : τ) :
    Once T n ⟨barrierInit T, d₀⟩ (L.turns (⟨barrierInit T, d₀⟩ : Mem τ)).line := by
  have hline := L.turns_line_snd (⟨barrierInit T, d₀⟩ : Mem τ)
  generalize (L.turns (⟨barrierInit T, d₀⟩ : Mem τ)).line = line at hline
  have hplace : ∀ x ∈ line, ∃ id < n, x.2 = .begins id 1 := by
    intro x hx
    have hmem : x.2 ∈ w.bodies n := hline ▸ List.mem_map_of_mem hx
    simpa [bodies, hP, eq_comm] using hmem
  have hlen : line.length = n := by
    simpa [bodies] using congrArg List.length hline
  refine ⟨rfl, hT, ?_, ?_, ?_⟩
  · symm
    refine List.countP_eq_zero.mpr ?_
    intro x hx
    obtain ⟨id, -, hk⟩ := hplace x hx
    simp [hk, Place.waitsAt]
  · have hcount : line.countP (fun x => x.2.early) = line.length := by
      refine List.countP_eq_length.mpr ?_
      intro x hx
      obtain ⟨id, -, hk⟩ := hplace x hx
      rw [hk]
      rfl
    simp [barrierInit, hcount, hlen]
  · intro x hx
    obtain ⟨id, -, hk⟩ := hplace x hx
    rw [hk]
    exact le_rfl

/-- Where every worker in the line finds the barrier closed, it has let through what it could. -/
theorem count_eq (h : Once T n m line)
    (hall : ∀ x ∈ line, ∃ id r, x.2 = .waits id r m.gate.generation) :
    n = m.gate.generation * T + line.length ∧ line.length < T := by
  have hcount : m.gate.arrived = line.length := by
    rw [h.arrived]
    refine List.countP_eq_length.mpr ?_
    intro x hx
    obtain ⟨id, r, hk⟩ := hall x hx
    simp [hk, Place.waitsAt]
  have hearly : line.countP (fun x => x.2.early) = 0 := by
    refine List.countP_eq_zero.mpr ?_
    intro x hx
    obtain ⟨id, r, hk⟩ := hall x hx
    simp [hk, Place.early]
  have hlt := h.lt
  have := h.count
  rw [hcount] at hlt this
  exact ⟨by omega, hlt⟩

end Once

/-- **Meeting once.**  `n` workers that meet once, at a barrier that expects `T` of them, all get
through when `n` is a multiple of `T`; when it is not, `co_run` does not return. -/
theorem meet_once (w : Work τ) (hw : w.wait = barrierWait ∨ w.wait = cobWait) (hP : w.phases = 1)
    {T : ℕ} (hT : 0 < T) (L : Launch (w.bodies n)) (d₀ : τ) :
    (T ∣ n → L.Completes w.script ⟨barrierInit T, d₀⟩ fun m => m.gate = ⟨T, 0, n / T⟩) ∧
    (¬ T ∣ n → L.Diverges w.script ⟨barrierInit T, d₀⟩) := by
  -- the table has not room for more workers than an `int` can count
  have hn : n < 2 ^ 31 := by
    have hlen : (w.bodies n).length = n := by simp [bodies]
    have hroom := L.room
    rw [hlen, maxCoroutines] at hroom
    omega
  obtain ⟨d, -, h, hstuck, hdone, hloop⟩ := L.exists_settled (w.uses _) w.yieldsOnly
    (Once.kept hw hn) (Once.start hP hT L d₀) w.weight (fun _ => 0) script_of_waits
    fun fin m _ k _ _ => script_lt fin m k
  obtain ⟨hcount, hlt⟩ := h.count_eq hstuck
  constructor
  · intro hdvd
    have hl : d.line = [] := by
      rw [hcount, Nat.dvd_add_right (Nat.dvd_mul_left T _)] at hdvd
      exact List.length_eq_zero_iff.mp (Nat.eq_zero_of_dvd_of_lt hdvd hlt)
    rw [hl] at h hcount
    have harr : d.mem.gate.arrived = 0 := h.arrived
    have hgen : d.mem.gate.generation = n / T := by
      rw [hcount]
      exact (Nat.mul_div_cancel _ hT).symm
    refine (hdone hl).imp ?_
    rintro m rfl
    rw [← hgen, ← h.total, ← harr]
  · intro hndvd
    refine hloop ?_
    intro hl
    rw [hl] at hcount
    exact hndvd ⟨_, hcount.trans (Nat.mul_comm _ _)⟩

/-- At a barrier for four, eight workers get through and six do not. -/
theorem meet_once_four :
    ((Launch.first (t1Worker.bodies 8) (by decide)).Completes t1Worker.script
      ⟨barrierInit 4, 0, 0⟩ fun m => m.gate = ⟨4, 0, 2⟩) ∧
    (Launch.first (t1Worker.bodies 6) (by decide)).Diverges t1Worker.script
      ⟨barrierInit 4, 0, 0⟩ :=
  ⟨(meet_once t1Worker (.inl rfl) rfl (by decide) _ _).1 (by decide),
    (meet_once t1Worker (.inl rfl) rfl (by decide) _ _).2 (by decide)⟩

end Work

end CCoroutine.Clients
