import CCoroutine.Clients.Launches
import CCoroutine.Support.Ints
import CCoroutine.Support.Ring
import Mathlib.Tactic.Positivity
import Mathlib.Tactic.Ring

/-!
# Clients — Pipeline

The pipeline of `tests/test_pipeline.c`: a producer of the numbers from `1` to `N`, a squarer and a
consumer that adds up, with a ring of `cap` entries between two neighbours.  Each stage yields while
its ring is full or empty; the end is passed on with the flag `done` of a ring.

At every step the numbers are in order, none lost and none twice: those consumed, then those in the
second ring, the one in the squarer's hand, those in the first ring, and those still to be produced
(`Flow`).  Whatever the order in which main creates the stages, they come to an end, and then the
consumer has the sum of all squares (`pipeline_sums`).

The numbers are an `int` and the sum is a `long`, so all of this needs that the last square fits an
`int`: beyond it the multiplication overflows (undefined in C, `wrap` here).
-/

namespace CCoroutine.Clients.Pipeline
open Support (Call Script Turns wrap)

/-- `Ring`: `buf`, `head`, `tail` and `size` are the ring of the library of this development. -/
structure Ring (cap : ℕ) extends Support.Ring ℤ cap where
  done : Bool

variable {cap : ℕ}

def ringInit (h : 0 < cap) : Ring cap := ⟨Support.Ring.empty 0 h, false⟩

abbrev ringFull (r : Ring cap) : Prop := r.size = cap

def ringPush (r : Ring cap) (v : ℤ) (h : ¬ ringFull r) : Ring cap :=
  ⟨r.push v (lt_of_le_of_ne r.size_le h), r.done⟩

/-- `ring_pop`, with the test `ring_empty` of its callers: nothing comes out of an empty ring. -/
def ringPop (r : Ring cap) : Option ℤ × Ring cap := (r.pop.1, ⟨r.pop.2, r.done⟩)

/-- `r1`, `r2`, and `sum` of the `ConsumerArgs`. -/
structure Mem (cap : ℕ) where
  r1 : Ring cap
  r2 : Ring cap
  sum : ℤ

/-- Where a stage goes on, with its local variable. -/
inductive Place where
  | producer (i : ℕ)
  | squarer
  /-- In the loop `while (ring_full(out))`, with `v` taken from the first ring. -/
  | squared (v : ℤ)
  | consumer

def producer (N i : ℕ) (m : Mem cap) : Mem cap × Call Place :=
  if i ≤ N then
    if h : ringFull m.r1 then (m, .yield (.producer i))
    else ({ m with r1 := ringPush m.r1 i h }, .yield (.producer (i + 1)))
  else ({ m with r1 := { m.r1 with done := true } }, .ret)

/-- The second half of the loop of `squarer`. -/
def square (v : ℤ) (m : Mem cap) : Mem cap × Call Place :=
  if h : ringFull m.r2 then (m, .yield (.squared v))
  else ({ m with r2 := ringPush m.r2 (wrap 32 (v * v)) h }, .yield .squarer)

def squarer (m : Mem cap) : Mem cap × Call Place :=
  match ringPop m.r1 with
  | (none, _) =>
      if m.r1.done then ({ m with r2 := { m.r2 with done := true } }, .ret)
      else (m, .yield .squarer)
  | (some v, r1) => square v { m with r1 := r1 }

def consumer (m : Mem cap) : Mem cap × Call Place :=
  match ringPop m.r2 with
  | (none, _) => if m.r2.done then (m, .ret) else (m, .yield .consumer)
  | (some v, r2) => ({ m with r2 := r2, sum := wrap 64 (m.sum + v) }, .yield .consumer)

/-- The code of the stages. -/
def script (N : ℕ) : Script (Mem cap) Place := fun _ k m =>
  match k with
  | .producer i => producer N i m
  | .squarer => squarer m
  | .squared v => square v m
  | .consumer => consumer m

/-- The stages, in the order in which `main` creates them. -/
def stages : List Place := [.producer 1, .squarer, .consumer]

def start (h : 0 < cap) : Mem cap := ⟨ringInit h, ringInit h, 0⟩

/-! ### The code -/

theorem ringPop_nil {r : Ring cap} (h : r.toList = []) : ringPop r = (none, r) := by
  rw [ringPop, r.pop_eq_none h]

theorem ringPop_cons {r : Ring cap} {x : ℤ} {xs : List ℤ} (h : r.toList = x :: xs) :
    ∃ r', ringPop r = (some x, r') ∧ r'.toList = xs ∧ r'.done = r.done := by
  obtain ⟨q, hq, hxs⟩ := r.pop_cons h
  exact ⟨⟨q, r.done⟩, by rw [ringPop, hq], hxs, rfl⟩

theorem toList_ringPush {r : Ring cap} {v : ℤ} (h : ¬ ringFull r) :
    (ringPush r v h).toList = r.toList ++ [v] :=
  r.toList_push v _

section Code

variable {N : ℕ} {m : Mem cap}

theorem producer_of_full {i : ℕ} (hi : i ≤ N) (h : ringFull m.r1) :
    producer N i m = (m, .yield (.producer i)) := by
  rw [producer, if_pos hi, dif_pos h]

theorem producer_of_room {i : ℕ} (hi : i ≤ N) (h : ¬ ringFull m.r1) :
    producer N i m = ({ m with r1 := ringPush m.r1 i h }, .yield (.producer (i + 1))) := by
  rw [producer, if_pos hi, dif_neg h]

theorem producer_of_end {i : ℕ} (hi : ¬ i ≤ N) :
    producer N i m = ({ m with r1 := { m.r1 with done := true } }, .ret) := by
  rw [producer, if_neg hi]

theorem square_of_full {v : ℤ} (h : ringFull m.r2) : square v m = (m, .yield (.squared v)) := by
  rw [square, dif_pos h]

theorem square_of_room {v : ℤ} (h : ¬ ringFull m.r2) :
    square v m = ({ m with r2 := ringPush m.r2 (wrap 32 (v * v)) h }, .yield .squarer) := by
  rw [square, dif_neg h]

theorem squarer_of_nil (h : m.r1.toList = []) (hd : m.r1.done = false) :
    squarer m = (m, .yield .squarer) := by
  simp [squarer, ringPop_nil h, hd]

theorem squarer_of_end (h : m.r1.toList = []) (hd : m.r1.done = true) :
    squarer m = ({ m with r2 := { m.r2 with done := true } }, .ret) := by
  simp [squarer, ringPop_nil h, hd]

theorem squarer_of_pop {v : ℤ} {r : Ring cap} (h : ringPop m.r1 = (some v, r)) :
    squarer m = square v { m with r1 := r } := by
  simp [squarer, h]

theorem consumer_of_nil (h : m.r2.toList = []) (hd : m.r2.done = false) :
    consumer m = (m, .yield .consumer) := by
  simp [consumer, ringPop_nil h, hd]

theorem consumer_of_end (h : m.r2.toList = []) (hd : m.r2.done = true) :
    consumer m = (m, .ret) := by
  simp [consumer, ringPop_nil h, hd]

theorem consumer_of_pop {v : ℤ} {r : Ring cap} (h : ringPop m.r2 = (some v, r)) :
    consumer m = ({ m with r2 := r, sum := wrap 64 (m.sum + v) }, .yield .consumer) := by
  simp [consumer, h]

end Code

theorem yieldsOnly (N : ℕ) : (script N : Script (Mem cap) Place).YieldsOnly := by
  have hsquare : ∀ (v : ℤ) (m : Mem cap) j k, (square v m).2 ≠ .await j k := by
    intro v m j k
    unfold square
    split <;> simp
  intro fin k m j k'
  cases k with
  | producer i =>
      simp only [script, producer]
      split
      · split <;> simp
      · simp
  | squarer =>
      simp only [script, squarer]
      split
      · split <;> simp
      · exact hsquare _ _ j k'
  | squared v => exact hsquare v m j k'
  | consumer =>
      simp only [script, consumer]
      split
      · split <;> simp
      · simp

theorem uses (N : ℕ) (H : ℕ → Prop) : (script N : Script (Mem cap) Place).Uses H :=
  (yieldsOnly N).uses (fun _ _ => rfl) H

/-! ### The order of the numbers -/

def numbers (n k : ℕ) : List ℤ := (List.range' n k).map Nat.cast

theorem numbers_succ (n k : ℕ) : numbers n (k + 1) = numbers n k ++ [((n + k : ℕ) : ℤ)] := by
  rw [numbers, List.range'_concat, List.map_append, Nat.one_mul]
  rfl

theorem numbers_cons (n k : ℕ) : numbers n (k + 1) = (n : ℤ) :: numbers (n + 1) k := rfl

theorem mem_numbers {n k : ℕ} {v : ℤ} (h : v ∈ numbers n k) : (n : ℤ) ≤ v ∧ v < n + k := by
  obtain ⟨u, hu, rfl⟩ := List.mem_map.mp h
  rw [List.mem_range'_1] at hu
  omega

def squares (n k : ℕ) : List ℤ := (numbers n k).map fun v => v * v

theorem squares_succ (n k : ℕ) :
    squares n (k + 1) = squares n k ++ [((n + k : ℕ) : ℤ) * (n + k : ℕ)] := by
  rw [squares, numbers_succ, List.map_append]
  rfl

theorem squares_cons (n k : ℕ) : squares n (k + 1) = (n : ℤ) * n :: squares (n + 1) k := rfl

theorem sum_squares (n : ℕ) :
    (squares 1 n).sum = (n : ℤ) * (n + 1) * (2 * n + 1) / 6 := by
  have h : 6 * (squares 1 n).sum = (n : ℤ) * (n + 1) * (2 * n + 1) := by
    induction n with
    | zero => rfl
    | succ n ih =>
        rw [squares_succ, List.sum_append, Int.mul_add, ih, List.sum_singleton]
        push_cast
        ring
  rw [← h, Int.mul_ediv_cancel_left _ (by decide)]

theorem sum_squares_mem {n N : ℕ} (h : n ≤ N) :
    0 ≤ (squares 1 n).sum ∧ (squares 1 n).sum ≤ n * ((N : ℤ) * N) := by
  induction n with
  | zero => simp [squares, numbers]
  | succ n ih =>
      have hn : ((1 + n : ℕ) : ℤ) ≤ N := by omega
      have hsq : ((1 + n : ℕ) : ℤ) * (1 + n : ℕ) ≤ N * N := mul_self_le_mul_self (by omega) hn
      have hpos := mul_self_nonneg ((1 + n : ℕ) : ℤ)
      obtain ⟨hlo, hhi⟩ := ih (Nat.le_of_succ_le h)
      rw [squares_succ, List.sum_append, List.sum_singleton, Nat.cast_succ, add_mul, one_mul]
      exact ⟨add_nonneg hlo hpos, add_le_add hhi hsq⟩

/-- `c` numbers have been consumed, `b` are in the second ring, one is held by the squarer or none,
and `a` are in the first ring.  `P`, `S` and `C` are the places of the stages that are left. -/
structure Flow (N : ℕ) (m : Mem cap) (c b a : ℕ) (held ended : Bool) (P S C : Option Place) :
    Prop where
  le : c + b + held.toNat + a ≤ N
  sum : m.sum = (squares 1 c).sum
  r2 : m.r2.toList = squares (c + 1) b
  r1 : m.r1.toList = numbers (c + b + held.toNat + 1) a
  producer : P = if m.r1.done then none else some (.producer (c + b + held.toNat + a + 1))
  squarer : S = if m.r2.done then none
    else some (if held then .squared (c + b + 1 : ℕ) else .squarer)
  consumer : C = if ended then none else some .consumer
  /-- A stage leaves when there is nothing left for it. -/
  done1 : m.r1.done = true → c + b + held.toNat + a = N
  done2 : m.r2.done = true → m.r1.done = true ∧ held = false ∧ a = 0
  done : ended = true → m.r2.done = true ∧ b = 0

namespace Flow

variable {N : ℕ} {m : Mem cap} {c b a i : ℕ} {v : ℤ} {held ended : Bool} {P S C : Option Place}

theorem not_done1 {k : Place} (h : Flow N m c b a held ended (some k) S C) : m.r1.done = false := by
  by_contra hd
  have hP := h.producer
  rw [if_pos (by simpa using hd)] at hP
  cases hP

theorem not_done2 {k : Place} (h : Flow N m c b a held ended P (some k) C) : m.r2.done = false := by
  by_contra hd
  have hS := h.squarer
  rw [if_pos (by simpa using hd)] at hS
  cases hS

theorem not_ended {k : Place} (h : Flow N m c b a held ended P S (some k)) : ended = false := by
  by_contra hd
  have hC := h.consumer
  rw [if_pos (by simpa using hd)] at hC
  cases hC

/-- The producer's turn. -/
theorem produces (h : Flow N m c b a held ended (some (.producer i)) S C) :
    ∃ a', Flow N (Pipeline.producer N i m).1 c b a' held ended
      (Pipeline.producer N i m).2.place S C := by
  have hd := h.not_done1
  have hi : i = c + b + held.toNat + a + 1 := by
    have hP := h.producer
    rw [hd] at hP
    exact Place.producer.inj (Option.some.inj hP)
  have h2 : m.r2.done = false := by
    by_contra h2
    rw [(h.done2 (by simpa using h2)).1] at hd
    cases hd
  by_cases hle : i ≤ N
  · by_cases hfull : ringFull m.r1
    · rw [producer_of_full hle hfull]
      exact ⟨a, h⟩
    · rw [producer_of_room hle hfull]
      refine ⟨a + 1, ?_, h.sum, h.r2, ?_, ?_, h.squarer, h.consumer, ?_, ?_, h.done⟩
      · rw [hi] at hle
        exact hle
      · rw [toList_ringPush, h.r1, numbers_succ, hi, Nat.add_right_comm _ 1 a]
      · show some _ = if m.r1.done then none else _
        rw [hd, hi]
        rfl
      · intro h1
        cases hd.symm.trans h1
      · intro h2'
        cases h2.symm.trans h2'
  · rw [producer_of_end hle]
    refine ⟨a, h.le, h.sum, h.r2, h.r1, rfl, h.squarer, h.consumer, ?_, ?_, h.done⟩
    · intro _
      have := h.le
      omega
    · intro h2'
      cases h2.symm.trans h2'

/-- The squarer's turn, with a number in its hand. -/
theorem squares (hN : N * N ≤ 2147483647) (h : Flow N m c b a true ended P (some (.squared v)) C) :
    ∃ b' held', Flow N (square v m).1 c b' a held' ended P (square v m).2.place C := by
  have hd := h.not_done2
  have hv : v = (c + b + 1 : ℕ) := by
    have hS := h.squarer
    rw [hd] at hS
    exact Place.squared.inj (Option.some.inj hS)
  have ho : ended = false := by
    by_contra ho
    cases hd.symm.trans (h.done (by simpa using ho)).1
  have hle : c + b + 1 + a ≤ N := h.le
  have hr1 : m.r1.toList = numbers (c + b + 1 + 1) a := h.r1
  have hfits : wrap 32 (v * v) = v * v := by
    have hvN : (c + b + 1) * (c + b + 1) ≤ N * N := Nat.mul_le_mul (by omega) (by omega)
    rw [hv, ← Int.natCast_mul]
    exact Support.wrap_of_lt (by omega) (by omega)
  by_cases hfull : ringFull m.r2
  · rw [square_of_full hfull]
    exact ⟨b, true, h⟩
  · rw [square_of_room hfull, hfits]
    refine ⟨b + 1, false, hle, h.sum, ?_, hr1, h.producer, ?_, h.consumer, h.done1, ?_, ?_⟩
    · rw [toList_ringPush, h.r2, squares_succ, hv, Nat.add_right_comm c 1 b]
    · show some _ = if m.r2.done then none else _
      rw [hd]
      rfl
    · intro hd'
      cases hd.symm.trans hd'
    · intro ho'
      cases ho.symm.trans ho'

/-- The squarer's turn, with nothing in its hand. -/
theorem takes (hN : N * N ≤ 2147483647) (h : Flow N m c b a held ended P (some .squarer) C) :
    ∃ b' a' held', Flow N (Pipeline.squarer m).1 c b' a' held' ended P
      (Pipeline.squarer m).2.place C := by
  have hd := h.not_done2
  obtain rfl : held = false := by
    have hS := h.squarer
    rw [hd] at hS
    cases held with
    | false => rfl
    | true => cases Option.some.inj hS
  cases a with
  | zero =>
      by_cases h1 : m.r1.done = true
      · rw [squarer_of_end h.r1 h1]
        refine ⟨b, 0, false, h.le, h.sum, h.r2, h.r1, h.producer, rfl, h.consumer, h.done1, ?_, ?_⟩
        · exact fun _ => ⟨h1, rfl, rfl⟩
        · exact fun ho => ⟨rfl, (h.done ho).2⟩
      · rw [squarer_of_nil h.r1 (by simpa using h1)]
        exact ⟨b, 0, false, h⟩
  | succ a =>
      obtain ⟨r, hpop, hr, hrd⟩ := ringPop_cons (h.r1.trans (numbers_cons _ _))
      rw [squarer_of_pop hpop]
      have hsum : c + b + 1 + a = c + b + (a + 1) := by omega
      -- the number is in the squarer's hand
      have hheld : Flow N { m with r1 := r } c b a true ended P
          (some (.squared (c + b + 1 : ℕ))) C := by
        refine ⟨?_, h.sum, h.r2, hr, ?_, ?_, h.consumer, ?_, ?_, h.done⟩
        · exact hsum.trans_le h.le
        · show P = if r.done then none else some (.producer (c + b + 1 + a + 1))
          rw [hrd, hsum]
          exact h.producer
        · show some _ = if m.r2.done then none else _
          rw [hd]
          rfl
        · intro h1
          exact hsum.trans (h.done1 (hrd.symm.trans h1))
        · intro hd'
          cases hd.symm.trans hd'
      obtain ⟨b', held', hb⟩ := hheld.squares hN
      exact ⟨b', a, held', hb⟩

theorem wrap_sum (hN : N * N ≤ 2147483647) (hc : c ≤ N) :
    wrap 64 (Pipeline.squares 1 c).sum = (Pipeline.squares 1 c).sum := by
  obtain ⟨hlo, hhi⟩ := sum_squares_mem hc
  refine Support.wrap_of_lt hlo (hhi.trans_lt ?_)
  have hcN : c ≤ 2147483647 := hc.trans ((Nat.le_mul_self N).trans hN)
  have hmul : c * (N * N) ≤ 2147483647 * 2147483647 := Nat.mul_le_mul hcN hN
  rw [← Int.natCast_mul, ← Int.natCast_mul]
  omega

/-- The consumer's turn. -/
theorem consumes (hN : N * N ≤ 2147483647) (h : Flow N m c b a held ended P S (some .consumer)) :
    ∃ c' b' ended', Flow N (Pipeline.consumer m).1 c' b' a held ended' P S
      (Pipeline.consumer m).2.place := by
  have ho := h.not_ended
  cases b with
  | zero =>
      by_cases h2 : m.r2.done = true
      · rw [consumer_of_end h.r2 h2]
        exact ⟨c, 0, true, h.le, h.sum, h.r2, h.r1, h.producer, h.squarer, rfl, h.done1, h.done2,
          fun _ => ⟨h2, rfl⟩⟩
      · rw [consumer_of_nil h.r2 (by simpa using h2)]
        exact ⟨c, 0, ended, h⟩
  | succ b =>
      obtain ⟨r, hpop, hr, hrd⟩ := ringPop_cons (h.r2.trans (squares_cons _ _))
      have hsum : c + 1 + b = c + (b + 1) := by omega
      have hc : c + 1 ≤ N := by
        have := h.le
        omega
      have hadd : m.sum + ((c + 1 : ℕ) : ℤ) * (c + 1 : ℕ) = (Pipeline.squares 1 (c + 1)).sum := by
        rw [squares_succ, List.sum_append, List.sum_singleton, ← h.sum, Nat.add_comm 1 c]
      rw [consumer_of_pop hpop, hadd, wrap_sum hN hc]
      refine ⟨c + 1, b, false, ?_, ?_, hr, ?_, ?_, ?_, rfl, ?_, ?_, ?_⟩
      · rw [hsum]
        exact h.le
      · rfl
      · rw [hsum]
        exact h.r1
      · rw [hsum]
        exact h.producer
      · show S = if r.done then none else _
        rw [hrd, hsum]
        exact h.squarer
      · rw [hsum]
        exact h.done1
      · intro h2
        exact h.done2 (hrd.symm.trans h2)
      · intro ho'
        cases ho'

end Flow

/-- What holds between two turns. -/
def Ordered (N : ℕ) (m : Mem cap) (line : List (ℕ × Place)) : Prop :=
  ∃ c b a held ended P S C, Flow N m c b a held ended P S C ∧
    (line.map Prod.snd).Perm (P.toList ++ S.toList ++ C.toList)

/-- **A turn keeps the order.** -/
theorem Ordered.kept {N : ℕ} (hN : N * N ≤ 2147483647) :
    Turns.Kept (script N) fun m : Mem cap => Ordered N m := by
  rintro m i k rest fin - ⟨c, b, a, held, ended, P, S, C, h, hp⟩
  have hk : k ∈ P.toList ++ S.toList ++ C.toList := hp.mem_iff.mp List.mem_cons_self
  have hcall : ∀ j k', (script N fin k m).2 ≠ .await j k' := yieldsOnly N fin k m
  rw [List.mem_append, List.mem_append, Option.mem_toList, Option.mem_toList,
    Option.mem_toList] at hk
  rcases hk with (rfl | rfl) | rfl
  · obtain ⟨i', rfl⟩ : ∃ i', k = .producer i' := by
      have hP := h.producer
      rw [h.not_done1] at hP
      exact ⟨_, Option.some.inj hP⟩
    obtain ⟨a', h'⟩ := h.produces
    refine ⟨c, b, a', held, ended, _, S, C, h', ?_⟩
    rw [List.append_assoc] at hp ⊢
    exact Turns.perm_settle_snd (A := []) hp hcall
  · have hp' : (((i, k) :: rest).map Prod.snd).Perm (P.toList ++ k :: C.toList) := by
      rwa [List.append_assoc] at hp
    have hS := h.squarer
    rw [h.not_done2] at hS
    cases held with
    | false =>
        obtain rfl : k = .squarer := Option.some.inj hS
        obtain ⟨b', a', held', h'⟩ := h.takes hN
        exact ⟨c, b', a', held', ended, P, _, C, h', Turns.perm_settle_snd hp' hcall⟩
    | true =>
        obtain rfl : k = .squared (c + b + 1 : ℕ) := Option.some.inj hS
        obtain ⟨b', held', h'⟩ := h.squares hN
        exact ⟨c, b', a, held', ended, P, _, C, h', Turns.perm_settle_snd hp' hcall⟩
  · obtain rfl : k = .consumer := by
      have hC := h.consumer
      rw [h.not_ended] at hC
      exact Option.some.inj hC
    obtain ⟨c', b', ended', h'⟩ := h.consumes hN
    refine ⟨c', b', a, held, ended', P, S, _, h', ?_⟩
    have hs := Turns.perm_settle_snd (B := []) hp hcall
    rwa [List.append_nil] at hs

/-! ### Every turn moves a number on -/

theorem ringPop_cases (r : Ring cap) :
    r.toList = [] ∨ ∃ v r', ringPop r = (some v, r') ∧ r'.size + 1 = r.size := by
  cases h : r.toList with
  | nil => exact .inl rfl
  | cons v xs =>
      obtain ⟨r', hr, hxs, -⟩ := ringPop_cons h
      refine .inr ⟨v, r', hr, ?_⟩
      have := congrArg List.length h
      rwa [Support.Ring.length_toList, List.length_cons, ← hxs, Support.Ring.length_toList,
        eq_comm] at this

/-- What is left to do for a stage: a number takes four turns, and a stage one to leave. -/
def weight (N : ℕ) : Place → ℕ
  | .producer i => 4 * (N + 1 - i) + 1
  | .squarer | .consumer => 1
  | .squared _ => 3

/-- What is left to do for the numbers in the rings. -/
def load (m : Mem cap) : ℕ := 3 * m.r1.size + m.r2.size

theorem square_lt {N : ℕ} {v : ℤ} {m : Mem cap} (h : ¬ ringFull m.r2) :
    Turns.callWeight (weight N) (square v m).2 + load (square v m).1 = load m + 2 := by
  rw [square_of_room h]
  show 1 + (3 * m.r1.size + (m.r2.size + 1)) = 3 * m.r1.size + m.r2.size + 2
  omega

/-- The stage waits for a neighbour. -/
def Stuck (N : ℕ) (m : Mem cap) : Place → Prop
  | .producer i => i ≤ N ∧ ringFull m.r1
  | .squarer => m.r1.toList = [] ∧ m.r1.done = false
  | .squared _ => ringFull m.r2
  | .consumer => m.r2.toList = [] ∧ m.r2.done = false

theorem script_of_stuck {N : ℕ} (fin : ℕ → Bool) (m : Mem cap) (k : Place) (h : Stuck N m k) :
    script N fin k m = (m, .yield k) := by
  cases k with
  | producer i => exact producer_of_full h.1 h.2
  | squarer => exact squarer_of_nil h.1 h.2
  | squared v => exact square_of_full h
  | consumer => exact consumer_of_nil h.1 h.2

/-- A stage that does not wait has less left to do after its turn. -/
theorem script_lt {N : ℕ} (fin : ℕ → Bool) (m : Mem cap) (k : Place) (h : ¬ Stuck N m k) :
    Turns.callWeight (weight N) (script N fin k m).2 + load (script N fin k m).1 <
      weight N k + load m := by
  cases k with
  | producer i =>
      show Turns.callWeight (weight N) (producer N i m).2 + load (producer N i m).1 < _
      by_cases hi : i ≤ N
      · have hroom : ¬ ringFull m.r1 := fun hfull => h ⟨hi, hfull⟩
        rw [producer_of_room hi hroom]
        show 4 * (N + 1 - (i + 1)) + 1 + (3 * (m.r1.size + 1) + m.r2.size) <
          4 * (N + 1 - i) + 1 + (3 * m.r1.size + m.r2.size)
        omega
      · rw [producer_of_end hi]
        show 0 + load m < _
        rw [Nat.zero_add]
        exact Nat.lt_add_of_pos_left (Nat.succ_pos _)
  | squarer =>
      show Turns.callWeight (weight N) (squarer m).2 + load (squarer m).1 < 1 + load m
      rcases ringPop_cases m.r1 with hnil | ⟨v, r, hpop, hsize⟩
      · have hd : m.r1.done = true := by simpa using fun hd => h ⟨hnil, hd⟩
        rw [squarer_of_end hnil hd]
        show 0 + load m < _
        omega
      · rw [squarer_of_pop hpop]
        have hload : load { m with r1 := r } + 3 = load m := by
          show 3 * r.size + m.r2.size + 3 = 3 * m.r1.size + m.r2.size
          omega
        by_cases hfull : ringFull m.r2
        · rw [square_of_full (m := { m with r1 := r }) hfull]
          show 3 + load { m with r1 := r } < _
          omega
        · rw [square_lt (m := { m with r1 := r }) hfull]
          omega
  | squared v =>
      show Turns.callWeight (weight N) (square v m).2 + load (square v m).1 < 3 + load m
      rw [square_lt h]
      omega
  | consumer =>
      show Turns.callWeight (weight N) (consumer m).2 + load (consumer m).1 < 1 + load m
      rcases ringPop_cases m.r2 with hnil | ⟨v, r, hpop, hsize⟩
      · have hd : m.r2.done = true := by simpa using fun hd => h ⟨hnil, hd⟩
        rw [consumer_of_end hnil hd]
        show 0 + load m < _
        omega
      · rw [consumer_of_pop hpop]
        show 1 + (3 * m.r1.size + r.size) < 1 + (3 * m.r1.size + m.r2.size)
        omega

/-- **Not all stages wait**: a full ring has a reader, and an empty one a writer. -/
theorem Flow.none_left {N : ℕ} {m : Mem cap} {c b a : ℕ} {held ended : Bool} {P S C : Option Place}
    (h : Flow N m c b a held ended P S C) (hcap : 0 < cap)
    (hstuck : ∀ k ∈ P.toList ++ S.toList ++ C.toList, Stuck N m k) : ended = true := by
  have hP : ∀ k, P = some k → Stuck N m k := by
    intro k hk
    exact hstuck k (by simp [hk])
  have hS : ∀ k, S = some k → Stuck N m k := by
    intro k hk
    exact hstuck k (by simp [hk])
  by_contra hended
  have hC : m.r2.toList = [] ∧ m.r2.done = false := by
    refine hstuck .consumer ?_
    rw [h.consumer, if_neg hended]
    simp
  -- so the second ring is not full, and the squarer is there and waits for the first one
  have hroom : ¬ ringFull m.r2 := by
    rw [ringFull, ← m.r2.length_toList, hC.1]
    exact hcap.ne
  have hsq := h.squarer
  rw [hC.2] at hsq
  have h1 : m.r1.toList = [] ∧ m.r1.done = false := by
    cases held with
    | false => exact hS _ hsq
    | true => exact absurd (hS _ hsq) hroom
  -- and the producer waits for the first one too
  have hpr := h.producer
  rw [h1.2] at hpr
  have hfull : ringFull m.r1 := (hP _ hpr).2
  rw [ringFull, ← m.r1.length_toList, h1.1] at hfull
  exact hcap.ne hfull

/-! ### The sum -/

/-- The numbers in the rings are in order, and so are those before and behind them. -/
def InOrder (N : ℕ) (m : Mem cap) : Prop :=
  ∃ c b held a, c + b + held + a ≤ N ∧ held ≤ 1 ∧ m.sum = (squares 1 c).sum ∧
    m.r2.toList = squares (c + 1) b ∧ m.r1.toList = numbers (c + b + held + 1) a

theorem Flow.inOrder {N : ℕ} {m : Mem cap} {c b a : ℕ} {held ended : Bool} {P S C : Option Place}
    (h : Flow N m c b a held ended P S C) : InOrder N m :=
  ⟨c, b, held.toNat, a, h.le, Bool.toNat_le held, h.sum, h.r2, h.r1⟩

/-- The numbers do not exceed the last one, its square, and the sum at the end. -/
theorem InOrder.bounds {N : ℕ} {m : Mem cap} (h : InOrder N m) :
    (∀ v ∈ m.r1.toList, v ≤ N) ∧ (∀ v ∈ m.r2.toList, v ≤ N * N) ∧
      m.sum ≤ N * (N + 1) * (2 * N + 1) / 6 := by
  obtain ⟨c, b, held, a, hle, -, hsum, hr2, hr1⟩ := h
  refine ⟨?_, ?_, ?_⟩
  · intro v hv
    rw [hr1] at hv
    have := mem_numbers hv
    omega
  · intro v hv
    rw [hr2, squares, List.mem_map] at hv
    obtain ⟨u, hu, rfl⟩ := hv
    have hu := mem_numbers hu
    exact mul_self_le_mul_self (by omega) (by omega)
  · rw [hsum, sum_squares]
    have hc : (c : ℤ) ≤ N := by omega
    refine Int.ediv_le_ediv (by decide) ?_
    gcongr

/-- **The pipeline**, created in any order, where the last square fits an `int`.  At every step the
numbers are in order and within bounds, and `co_run` returns with the sum that the test expects. -/
theorem pipeline_sums {N : ℕ} (hN : N * N ≤ 2147483647) (hcap : 0 < cap) {bodies : List Place}
    (hb : bodies.Perm stages) (L : Launch bodies) :
    L.Always (script N) (start hcap) (fun m => InOrder N m ∧ (∀ v ∈ m.r1.toList, v ≤ N) ∧
      (∀ v ∈ m.r2.toList, v ≤ N * N) ∧ m.sum ≤ N * (N + 1) * (2 * N + 1) / 6) ∧
    L.Completes (script N) (start hcap) fun m => m.sum = N * (N + 1) * (2 * N + 1) / 6 := by
  have hstart : Ordered N (L.turns (start hcap)).mem (L.turns (start hcap)).line := by
    refine ⟨0, 0, 0, false, false, some (.producer 1), some .squarer, some .consumer, ?_, ?_⟩
    · refine ⟨Nat.zero_le N, rfl, rfl, rfl, rfl, rfl, rfl, ?_, ?_, ?_⟩
      · intro h
        cases h
      · intro h
        cases h
      · intro h
        cases h
    · rw [L.turns_line_snd]
      exact hb
  constructor
  · refine L.always_of_kept (uses N _) (yieldsOnly N) (Ordered.kept hN) hstart ?_
    rintro m line ⟨c, b, a, held, ended, P, S, C, h, -⟩
    exact ⟨h.inOrder, h.inOrder.bounds⟩
  · obtain ⟨d, -, ⟨c, b, a, held, ended, P, S, C, h, hp⟩, hstuck, hdone, -⟩ :=
      L.exists_settled (uses N _) (yieldsOnly N) (Ordered.kept hN) hstart (weight N) load
        script_of_stuck fun fin m _ k _ _ => script_lt fin m k
    have hended : ended = true := by
      refine h.none_left hcap ?_
      intro k hk
      obtain ⟨x, hx, rfl⟩ := List.mem_map.mp (hp.mem_iff.mpr hk)
      exact hstuck x hx
    obtain ⟨h2, rfl⟩ := h.done hended
    obtain ⟨h1, rfl, rfl⟩ := h.done2 h2
    obtain rfl : c = N := h.done1 h1
    have hline : d.line.map Prod.snd = [] := by
      rw [h.producer, h.squarer, h.consumer, if_pos h1, if_pos h2, if_pos hended] at hp
      exact hp.eq_nil
    refine (hdone (List.map_eq_nil_iff.mp hline)).imp ?_
    rintro _ rfl
    exact h.sum.trans (sum_squares c)

/-- The test: twenty numbers, and rings of four. -/
theorem pipeline_sums_twenty :
    (Launch.first stages (by decide)).Completes (script 20) (start (by decide : 0 < 4))
      fun m => m.sum = 2870 :=
  (pipeline_sums (by decide) (by decide) (.refl _) _).2

end CCoroutine.Clients.Pipeline
