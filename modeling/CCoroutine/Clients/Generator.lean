import CCoroutine.Clients.Launches
import CCoroutine.Support.Ints
import Mathlib.Data.Nat.Fib.Basic

/-!
# Clients — Generator

The generator of `examples/generator.c`.  `fib_gen` puts the Fibonacci numbers into a channel that
holds one value, and `fib_consumer` prints them; it goes on until the channel is empty and
`co_state` says that the generator is done.  So it may come upon a generator that is done and has
left its last value in the channel.

Every number is printed once, in order, and the sum after the last one (`prints_fibonacci`), as
long as there are at most 91 of them: after the 92nd number both the sum and the next `b` are beyond
a `long` (undefined in C, `wrap` here).  For twelve numbers the sum is 232, not the 286 of the
comment at the head of the source.
-/

namespace CCoroutine.Clients.Generator
open Support (Call Script Turns wrap)

/-- `Chan`, and what has been printed. -/
structure Mem where
  value : ℤ
  ready : Bool
  printed : List ℤ
  total : Option ℤ

/-- Where a coroutine goes on, with its local variables. -/
inductive Place where
  | gen (i : ℕ) (a b : ℤ)
  | consumer (sum : ℤ)

/-- `fib_gen`; `F` is `FIB_COUNT`. -/
def fibGen (F i : ℕ) (a b : ℤ) (m : Mem) : Mem × Call Place :=
  if i < F then
    if m.ready then (m, .yield (.gen i a b))
    else ({ m with value := a, ready := true }, .yield (.gen (i + 1) b (wrap 64 (a + b))))
  else (m, .ret)

/-- The end of a round of `fib_consumer`, when there is nothing in the channel. -/
def fibWait (done : Bool) (sum : ℤ) (m : Mem) : Mem × Call Place :=
  if done then ({ m with total := some sum }, .ret) else (m, .yield (.consumer sum))

/-- `fib_consumer`.  After a value it looks at the channel again, which is now empty. -/
def fibConsumer (done : Bool) (sum : ℤ) (m : Mem) : Mem × Call Place :=
  if m.ready then
    fibWait done (wrap 64 (sum + m.value))
      { m with printed := m.printed ++ [m.value], ready := false }
  else fibWait done sum m

/-- The code of the two; `g` is the generator. -/
def script (F g : ℕ) : Script Mem Place := fun fin k m =>
  match k with
  | .gen i a b => fibGen F i a b m
  | .consumer sum => fibConsumer (fin g) sum m

def bodies : List Place := [.gen 0 0 1, .consumer 0]

def start : Mem := ⟨0, false, [], none⟩

/-! ### The code -/

section Code

variable {F g i : ℕ} {a b sum : ℤ} {m : Mem} {done : Bool}

theorem fibGen_of_ready (hi : i < F) (h : m.ready = true) :
    fibGen F i a b m = (m, .yield (.gen i a b)) := by
  rw [fibGen, if_pos hi, if_pos h]

theorem fibGen_of_empty (hi : i < F) (h : m.ready = false) :
    fibGen F i a b m =
      ({ m with value := a, ready := true }, .yield (.gen (i + 1) b (wrap 64 (a + b)))) := by
  simp [fibGen, hi, h]

theorem fibGen_of_end (hi : ¬ i < F) : fibGen F i a b m = (m, .ret) := by
  rw [fibGen, if_neg hi]

theorem fibConsumer_of_ready (h : m.ready = true) : fibConsumer done sum m =
    fibWait done (wrap 64 (sum + m.value))
      { m with printed := m.printed ++ [m.value], ready := false } := by
  rw [fibConsumer, if_pos h]

theorem fibConsumer_of_empty (h : m.ready = false) :
    fibConsumer done sum m = fibWait done sum m := by
  simp [fibConsumer, h]

theorem fibWait_ne_await (j : ℕ) (k : Place) : (fibWait done sum m).2 ≠ .await j k := by
  unfold fibWait
  split <;> simp

theorem yieldsOnly (F g : ℕ) : (script F g).YieldsOnly := by
  intro fin k m j k'
  cases k with
  | gen i a b =>
      simp only [script, fibGen]
      split
      · split <;> simp
      · simp
  | consumer sum =>
      simp only [script, fibConsumer]
      split
      · exact fibWait_ne_await j k'
      · exact fibWait_ne_await j k'

theorem uses {H : ℕ → Prop} (F : ℕ) (hg : H g) : (script F g).Uses H := by
  refine ⟨fun fin k m j k' h => absurd h (yieldsOnly F g fin k m j k'), ?_⟩
  intro fin fin' k m hfin
  cases k with
  | gen i a b => rfl
  | consumer sum =>
      show fibConsumer (fin g) sum m = fibConsumer (fin' g) sum m
      rw [hfin g hg]

end Code

/-! ### The order of the numbers -/

def fibs (n : ℕ) : List ℤ := (List.range n).map fun i => (Nat.fib i : ℤ)

theorem fibs_succ (n : ℕ) : fibs (n + 1) = fibs n ++ [(Nat.fib n : ℤ)] := by
  rw [fibs, List.range_succ, List.map_append]
  rfl

theorem sum_fibs (n : ℕ) : (fibs n).sum = (Nat.fib (n + 1) : ℤ) - 1 := by
  induction n with
  | zero => rfl
  | succ n ih =>
      rw [fibs_succ, List.sum_append, List.sum_singleton, ih, Nat.fib_add_two]
      omega

theorem fib_le {n : ℕ} (h : n ≤ 92) : Nat.fib n ≤ 7540113804746346429 :=
  (Nat.fib_mono h).trans (by decide +kernel)

theorem wrap_fib {n : ℕ} (h : n ≤ 92) : wrap 64 (Nat.fib n : ℤ) = Nat.fib n := by
  have := fib_le h
  exact Support.wrap_of_lt (by omega) (by omega)

theorem wrap_sum_fibs {n : ℕ} (h : n ≤ 91) : wrap 64 (fibs n).sum = (fibs n).sum := by
  have hle := fib_le (Nat.add_le_add_right h 1)
  have hpos : 0 < Nat.fib (n + 1) := Nat.fib_pos.mpr (Nat.succ_pos n)
  rw [sum_fibs]
  exact Support.wrap_of_lt (by omega) (by omega)

-- `FIB_COUNT` is 12
example : fibs 12 = [0, 1, 1, 2, 3, 5, 8, 13, 21, 34, 55, 89] ∧ (fibs 12).sum = 232 := by decide

/-- What is in the channel. -/
def Mem.pending (m : Mem) : List ℤ := if m.ready then [m.value] else []

/-- `i` numbers have been generated.  `G` and `C` are the places of the generator and of the
consumer, when they are not done. -/
structure Feeds (F : ℕ) (m : Mem) (i : ℕ) (G C : Option Place) : Prop where
  le : i ≤ F
  order : m.printed ++ m.pending = fibs i
  gen : G = some (.gen i (Nat.fib i) (Nat.fib (i + 1))) ∨ G = none ∧ i = F
  consumer : C = some (.consumer m.printed.sum) ∧ m.total = none ∨
    C = none ∧ G = none ∧ m.ready = false ∧ m.total = some m.printed.sum

namespace Feeds

variable {F g i : ℕ} {sum : ℤ} {m : Mem} {G C : Option Place} {k : Place}

/-- The generator's turn. -/
theorem generates (hF : F ≤ 91) (h : Feeds F m i (some k) C) {j : ℕ} {a b : ℤ}
    (hk : k = .gen j a b) :
    ∃ i', Feeds F (fibGen F j a b m).1 i' (fibGen F j a b m).2.place C := by
  subst hk
  obtain ⟨rfl, rfl, rfl⟩ : j = i ∧ a = Nat.fib i ∧ b = Nat.fib (i + 1) := by
    rcases h.gen with hG | ⟨hG, -⟩
    · simpa using hG
    · cases hG
  have hC : C = some (.consumer m.printed.sum) ∧ m.total = none := by
    rcases h.consumer with hC | ⟨-, hG, -⟩
    · exact hC
    · cases hG
  by_cases hj : j < F
  · cases hr : m.ready with
    | true =>
        rw [fibGen_of_ready hj hr]
        exact ⟨j, h⟩
    | false =>
        have horder : m.printed = fibs j := by simpa [Mem.pending, hr] using h.order
        rw [fibGen_of_empty hj hr]
        refine ⟨j + 1, hj, ?_, .inl ?_, .inl hC⟩
        · rw [fibs_succ, ← horder]
          rfl
        · rw [← Nat.cast_add, ← Nat.fib_add_two, wrap_fib (by omega)]
          rfl
  · rw [fibGen_of_end hj]
    exact ⟨j, h.le, h.order, .inr ⟨rfl, le_antisymm h.le (not_lt.mp hj)⟩, .inl hC⟩

theorem sum_eq (h : Feeds F m i G (some (.consumer sum))) :
    sum = m.printed.sum ∧ m.total = none := by
  rcases h.consumer with ⟨hC, ht⟩ | ⟨hC, -⟩
  · exact ⟨by simpa using hC, ht⟩
  · cases hC

/-- The consumer looks for the generator. -/
theorem waits (h : Feeds F m i G (some (.consumer sum))) (hr : m.ready = false) {done : Bool}
    (hdone : done = true ↔ G = none) :
    Feeds F (fibWait done sum m).1 i G (fibWait done sum m).2.place := by
  obtain ⟨rfl, -⟩ := h.sum_eq
  cases done with
  | false => exact h
  | true => exact ⟨h.le, h.order, h.gen, .inr ⟨rfl, hdone.mp rfl, hr, rfl⟩⟩

/-- The consumer's turn. -/
theorem consumes (hF : F ≤ 91) (h : Feeds F m i G (some (.consumer sum))) {done : Bool}
    (hdone : done = true ↔ G = none) :
    Feeds F (fibConsumer done sum m).1 i G (fibConsumer done sum m).2.place := by
  obtain ⟨hsum, htotal⟩ := h.sum_eq
  cases hr : m.ready with
  | false =>
      rw [fibConsumer_of_empty hr]
      exact h.waits hr hdone
  | true =>
      have horder : m.printed ++ [m.value] = fibs i := by simpa [Mem.pending, hr] using h.order
      have hadd : sum + m.value = (fibs i).sum := by
        rw [hsum, ← horder, List.sum_append, List.sum_singleton]
      have hnext : Feeds F { m with printed := m.printed ++ [m.value], ready := false } i G
          (some (.consumer (fibs i).sum)) := by
        refine ⟨h.le, ?_, h.gen, .inl ⟨?_, htotal⟩⟩
        · simpa [Mem.pending] using horder
        · rw [horder]
      rw [fibConsumer_of_ready hr, hadd, wrap_sum_fibs (h.le.trans hF)]
      exact hnext.waits rfl hdone

end Feeds

/-- What holds between two turns; `g` is the generator, and the consumer is the next number. -/
def Ordered (F g : ℕ) (m : Mem) (line : List (ℕ × Place)) : Prop :=
  ∃ i G C, Feeds F m i G C ∧
    line.Perm ((G.map fun k => (g, k)).toList ++ (C.map fun k => (g + 1, k)).toList)

theorem Ordered.kept {F : ℕ} (hF : F ≤ 91) (g : ℕ) : Turns.Kept (script F g) (Ordered F g) := by
  rintro m n k rest fin hfin ⟨i, G, C, h, hp⟩
  have hcall : ∀ j k', (script F g fin k m).2 ≠ .await j k' := yieldsOnly F g fin k m
  have hmem := hp.mem_iff.mp List.mem_cons_self
  rw [List.mem_append, Option.mem_toList, Option.mem_toList, Option.map_eq_some_iff,
    Option.map_eq_some_iff] at hmem
  rcases hmem with ⟨k', rfl, hk⟩ | ⟨k', rfl, hk⟩
  · obtain ⟨rfl, rfl⟩ := Prod.mk.inj hk
    obtain ⟨j, a, b, rfl⟩ : ∃ j a b, k' = .gen j a b := by
      rcases h.gen with hG | ⟨hG, -⟩
      · exact ⟨_, _, _, Option.some.inj hG⟩
      · cases hG
    obtain ⟨i', h'⟩ := h.generates hF rfl
    exact ⟨i', _, C, h', Turns.perm_settle (A := []) hp hcall⟩
  · obtain ⟨rfl, rfl⟩ := Prod.mk.inj hk
    obtain ⟨sum, rfl⟩ : ∃ sum, k' = .consumer sum := by
      rcases h.consumer with ⟨hC, -⟩ | ⟨hC, -⟩
      · exact ⟨_, Option.some.inj hC⟩
      · cases hC
    -- nobody else is in the line but the generator
    have hrest : rest.Perm (G.map fun k => (g, k)).toList := by
      refine (hp.trans ?_).cons_inv
      exact List.perm_append_comm
    have hdone : fin g = true ↔ G = none := by
      rw [hfin, (hrest.map Prod.fst).mem_iff]
      cases G with
      | none => simp
      | some k => simp
    have hs := Turns.perm_settle (B := []) hp hcall
    rw [List.append_nil] at hs
    exact ⟨i, G, _, h.consumes hF hdone, hs⟩

/-! ### Every turn gets a number on -/

/-- What is left to do: a number takes two turns, and each of the two one to leave. -/
def weight (F : ℕ) : Place → ℕ
  | .gen i _ _ => 2 * (F - i) + 1
  | .consumer _ => 1

def load (m : Mem) : ℕ := if m.ready then 1 else 0

/-- The generator waits for the consumer, or the consumer for the generator. -/
def Stuck (F g : ℕ) (fin : ℕ → Bool) (m : Mem) : Place → Prop
  | .gen i _ _ => i < F ∧ m.ready = true
  | .consumer _ => m.ready = false ∧ fin g = false

section Progress

variable {F g : ℕ}

theorem script_of_stuck (fin : ℕ → Bool) (m : Mem) (k : Place) (h : Stuck F g fin m k) :
    script F g fin k m = (m, .yield k) := by
  cases k with
  | gen i a b => exact fibGen_of_ready h.1 h.2
  | consumer sum =>
      show fibConsumer (fin g) sum m = _
      rw [fibConsumer_of_empty h.1, h.2]
      rfl

theorem fibWait_le (done : Bool) (sum : ℤ) (m : Mem) :
    Turns.callWeight (weight F) (fibWait done sum m).2 + load (fibWait done sum m).1 ≤
      1 + load m := by
  cases done with
  | false => exact le_rfl
  | true => exact (Nat.zero_add (load m)).trans_le (Nat.le_add_left _ 1)

theorem script_lt (fin : ℕ → Bool) (m : Mem) (k : Place) (h : ¬ Stuck F g fin m k) :
    Turns.callWeight (weight F) (script F g fin k m).2 + load (script F g fin k m).1 <
      weight F k + load m := by
  cases k with
  | gen i a b =>
      show Turns.callWeight (weight F) (fibGen F i a b m).2 + load (fibGen F i a b m).1 <
        2 * (F - i) + 1 + load m
      by_cases hi : i < F
      · have hr : m.ready = false := by simpa using fun hr => h ⟨hi, hr⟩
        rw [fibGen_of_empty hi hr]
        show 2 * (F - (i + 1)) + 1 + 1 < 2 * (F - i) + 1 + load m
        omega
      · rw [fibGen_of_end hi]
        show 0 + load m < _
        omega
  | consumer sum =>
      show Turns.callWeight (weight F) (fibConsumer (fin g) sum m).2 +
        load (fibConsumer (fin g) sum m).1 < 1 + load m
      cases hr : m.ready with
      | true =>
          rw [fibConsumer_of_ready hr]
          refine (fibWait_le _ _ _).trans_lt ?_
          simp [load, hr]
      | false =>
          have hd : fin g = true := by simpa using fun hd => h ⟨hr, hd⟩
          rw [fibConsumer_of_empty hr, hd]
          show 0 + load m < _
          omega

end Progress

/-- One of the two can go on, as long as one is left. -/
theorem Feeds.none_left {F g i : ℕ} {G C : Option Place} {d : Turns Mem Place}
    (h : Feeds F d.mem i G C)
    (hp : d.line.Perm ((G.map fun k => (g, k)).toList ++ (C.map fun k => (g + 1, k)).toList))
    (hblocked : d.blocked = []) (hstuck : ∀ x ∈ d.line, Stuck F g d.finished d.mem x.2) :
    C = none ∧ G = none ∧ d.mem.ready = false ∧ d.mem.total = some d.mem.printed.sum := by
  rcases h.consumer with ⟨rfl, -⟩ | hC
  · have hc : d.mem.ready = false ∧ d.finished g = false :=
      hstuck (g + 1, .consumer d.mem.printed.sum) (hp.mem_iff.mpr (by simp))
    rcases h.gen with rfl | ⟨rfl, -⟩
    · have hg : i < F ∧ d.mem.ready = true :=
        hstuck (g, .gen i (Nat.fib i) (Nat.fib (i + 1))) (hp.mem_iff.mpr (by simp))
      cases hc.1.symm.trans hg.2
    · -- the generator is done, and the consumer sees it
      have hfin : d.finished g = true := by
        simp [Turns.finished, hblocked, (hp.map Prod.fst).mem_iff]
      cases hc.2.symm.trans hfin
  · exact hC

/-- **The generator and its consumer**, where the numbers and their sum fit a `long`.  What is
printed at any step is a beginning of the sequence; `co_run` returns when all of it and the sum have
been printed. -/
theorem prints_fibonacci {F : ℕ} (hF : F ≤ 91) (L : Launch bodies) :
    L.Always (script F (L.s.all.length + 1)) start (fun m => m.printed <+: fibs F) ∧
    L.Completes (script F (L.s.all.length + 1)) start fun m =>
      m.printed = fibs F ∧ m.total = some ((Nat.fib (F + 1) : ℤ) - 1) := by
  have huse : (script F (L.s.all.length + 1)).Uses L.Handle :=
    uses F ⟨Nat.lt_succ_self _, Nat.add_le_add_left (by decide) _⟩
  have hf := yieldsOnly F (L.s.all.length + 1)
  have hstart : Ordered F (L.s.all.length + 1) (L.turns start).mem (L.turns start).line :=
    ⟨0, some (.gen 0 0 1), some (.consumer 0), ⟨Nat.zero_le F, rfl, .inl rfl, .inl ⟨rfl, rfl⟩⟩,
      .refl _⟩
  constructor
  · refine L.always_of_kept huse hf (Ordered.kept hF _) hstart ?_
    rintro m line ⟨i, G, C, h, -⟩
    obtain ⟨r, rfl⟩ := Nat.exists_eq_add_of_le h.le
    have hprefix : fibs i <+: fibs (i + r) := by
      rw [fibs, fibs, List.range_add, List.map_append]
      exact List.prefix_append _ _
    exact List.IsPrefix.trans ⟨_, h.order⟩ hprefix
  · obtain ⟨d, hblocked, ⟨i, G, C, h, hp⟩, hstuck, hdone, -⟩ :=
      L.exists_settled huse hf (Ordered.kept hF _) hstart (weight F) load script_of_stuck
        fun fin m _ k _ _ => script_lt fin m k
    obtain ⟨rfl, rfl, hr, htotal⟩ := Feeds.none_left h hp hblocked hstuck
    have horder := h.order
    rw [Mem.pending, hr, if_neg Bool.false_ne_true, List.append_nil] at horder
    obtain rfl : i = F := by
      rcases h.gen with hG | ⟨-, hi⟩
      · cases hG
      · exact hi
    refine (hdone hp.eq_nil).imp ?_
    rintro _ rfl
    exact ⟨horder, by rw [htotal, horder, sum_fibs]⟩

/-- The example: twelve numbers, and 232. -/
theorem prints_fibonacci_twelve :
    (Launch.first bodies (by decide)).Completes (script 12 1) start fun m =>
      m.printed = [0, 1, 1, 2, 3, 5, 8, 13, 21, 34, 55, 89] ∧ m.total = some 232 :=
  (prints_fibonacci (by decide) _).2

end CCoroutine.Clients.Generator
