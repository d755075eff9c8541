import CCoroutine.Clients.Launches

/-!
# Clients — Barrier — Definitions

The barriers of `tests/test_barrier.c` and `examples/barrier.c`, and the workers that meet at them.
A worker goes through a number of phases.  In each it yields a few times, writes down that it has
begun the phase, and waits at the barrier; a last note follows the last barrier.

Every turn of a worker that does not find the barrier closed gets it closer to its end
(`Work.script_lt`).  `Work.Phased` is the order of the notes that a barrier is for.
-/

namespace CCoroutine.Clients
open Support (Call Script Turns)

/-- `Barrier` of the test, and `CoBarrier` of the example, whose fields are `required`, `arrived`
and `phase`.  The generation is an `int` that is only counted and compared; it is given modulo
`2 ^ 32`. -/
structure Barrier where
  total : ℕ
  arrived : ℕ
  generation : ℕ

/-- `barrier_init` and `cob_init`. -/
def barrierInit (n : ℕ) : Barrier := ⟨n, 0, 0⟩

/-- Arriving at a barrier that opens when `opens arrived total`.  The caller goes on, or waits until
the generation is not the one returned. -/
def Barrier.arrive (opens : ℕ → ℕ → Bool) (b : Barrier) : Barrier × Option ℕ :=
  if opens (b.arrived + 1) b.total then
    ({ b with arrived := 0, generation := (b.generation + 1) % 2 ^ 32 }, none)
  else ({ b with arrived := b.arrived + 1 }, some b.generation)

/-- `barrier_wait`, up to its loop: `b->arrived == b->total`. -/
def barrierWait : Barrier → Barrier × Option ℕ := Barrier.arrive fun a n => a == n

/-- `cob_wait`, up to its loop: `b->arrived >= b->required`. -/
def cobWait : Barrier → Barrier × Option ℕ := Barrier.arrive fun a n => n ≤ a

/-- What the workers of a test do. -/
structure Work (τ : Type) where
  /-- The number of times a worker waits at the barrier. -/
  phases : ℕ
  /-- How often worker `id` yields in a phase. -/
  delay : ℕ → ℕ → ℕ
  /-- What worker `id` writes when it begins a phase. -/
  note : ℕ → ℕ → τ → τ
  wait : Barrier → Barrier × Option ℕ

/-- `t1_worker`: `t1_before` and `t1_after`. -/
def t1Worker : Work ((ℕ → ℕ) × (ℕ → ℕ)) where
  phases := 1
  delay _ _ := 0
  note id ph d :=
    if ph = 0 then (Function.update d.1 id 1, d.2) else (d.1, Function.update d.2 id 1)
  wait := barrierWait

/-- `t2_worker`: `t2_phase`. -/
def t2Worker : Work (ℕ → ℕ) where
  phases := 2
  delay _ _ := 0
  note id ph d := Function.update d id (ph + 1)
  wait := barrierWait

/-- `t3_worker`: `t3_reached`. -/
def t3Worker : Work ℕ where
  phases := 1
  delay _ _ := 0
  note _ ph d := if ph = 0 then d else 1
  wait := barrierWait

/-- `t4_worker`: `t4_arrived` and `t4_log`. -/
def t4Worker : Work (ℕ × List ℕ) where
  phases := 1
  delay _ _ := 0
  note id ph d := if ph = 0 then (d.1 + 1, d.2) else (d.1, d.2 ++ [id])
  wait := barrierWait

/-- `t5_worker`: `t5_done`. -/
def t5Worker : Work (ℕ → ℕ) where
  phases := 1
  delay id ph := if ph = 0 then id % 5 else 0
  note id ph d := if ph = 0 then d else Function.update d id 1
  wait := barrierWait

/-- The loop `for (i = 0; i < iters; i++) acc += i`. -/
def accumulate (acc iters : ℕ) : ℕ := (List.range iters).foldl (· + ·) acc

/-- `t6_worker`: `t6_partial` and `t6_total`.  The first loop, of `100 * (id + 1)` rounds, yields in
every twentieth. -/
def t6Worker : Work ((ℕ → ℕ) × (ℕ → ℕ)) where
  phases := 1
  delay id ph := if ph = 0 then ((List.range (100 * (id + 1))).filter (· % 20 = 0)).length else 0
  note id ph d :=
    let acc := accumulate 0 (100 * (id + 1))
    if ph = 0 then (Function.update d.1 id acc, d.2)
    else (d.1, Function.update d.2 id (accumulate acc 100))
  wait := barrierWait

namespace Work

variable {τ : Type}

structure Mem (τ : Type) where
  gate : Barrier
  data : τ

/-- Where a worker is; `r` is the number of barriers in front of it. -/
inductive Place where
  | begins (id r : ℕ)
  /-- In a phase, with `d` more yields to come. -/
  | delays (id r d : ℕ)
  /-- In the loop of `barrier_wait`. -/
  | waits (id r gen : ℕ)
  deriving DecidableEq

def Place.id : Place → ℕ
  | begins id _ | delays id _ _ | waits id _ _ => id

/-- A phase begins: the worker yields, if it does so in this phase, and goes on with `go`. -/
def proceed (w : Work τ) (id r : ℕ) (go : Mem τ → Mem τ × Call Place) (m : Mem τ) :
    Mem τ × Call Place :=
  if w.delay id (w.phases - r) = 0 then go m
  else (m, .yield (.delays id r (w.delay id (w.phases - r) - 1)))

/-- The rest of a phase: the note and the barrier.  The last to arrive goes on with the next phase
at once. -/
def arrive (w : Work τ) (id : ℕ) : ℕ → Mem τ → Mem τ × Call Place
  | 0, m => ({ m with data := w.note id w.phases m.data }, .ret)
  | r + 1, m =>
      let data := w.note id (w.phases - (r + 1)) m.data
      match w.wait m.gate with
      | (gate, none) => w.proceed id r (w.arrive id r) ⟨gate, data⟩
      | (gate, some gen) => (⟨gate, data⟩, .yield (.waits id r gen))

/-- The code of the workers. -/
def script (w : Work τ) : Script (Mem τ) Place := fun _ k m =>
  match k with
  | .begins id r => w.proceed id r (w.arrive id r) m
  | .delays id r 0 => w.arrive id r m
  | .delays id r (d + 1) => (m, .yield (.delays id r d))
  | .waits id r gen =>
      if m.gate.generation = gen then (m, .yield (.waits id r gen))
      else w.proceed id r (w.arrive id r) m

/-- `n` workers. -/
def bodies (w : Work τ) (n : ℕ) : List Place := (List.range n).map fun id => .begins id w.phases

/-! ### The code -/

variable {w : Work τ} {n : ℕ}

theorem wait_eq (hw : w.wait = barrierWait ∨ w.wait = cobWait) {b : Barrier}
    (hb : b.arrived < b.total) (hg : b.generation + 1 < 2 ^ 31) :
    w.wait b = if b.arrived + 1 = b.total
      then ({ b with arrived := 0, generation := b.generation + 1 }, none)
      else ({ b with arrived := b.arrived + 1 }, some b.generation) := by
  have hnext : (b.generation + 1) % 2 ^ 32 = b.generation + 1 := Nat.mod_eq_of_lt (by omega)
  rcases hw with hw | hw
  · rw [hw, barrierWait, Barrier.arrive, hnext]
    simp
  · have : b.total ≤ b.arrived + 1 ↔ b.arrived + 1 = b.total := by omega
    rw [hw, cobWait, Barrier.arrive, hnext]
    simp [this]

theorem proceed_ne_await {id r : ℕ} {go : Mem τ → Mem τ × Call Place} {m : Mem τ} {j : ℕ}
    {k : Place} (h : (go m).2 ≠ .await j k) : (w.proceed id r go m).2 ≠ .await j k := by
  unfold proceed
  split
  · exact h
  · simp

theorem arrive_ne_await (id r : ℕ) (m : Mem τ) (j : ℕ) (k : Place) :
    (w.arrive id r m).2 ≠ .await j k := by
  induction r generalizing m with
  | zero => simp [arrive]
  | succ r ih =>
      rw [arrive]
      split
      · exact proceed_ne_await (ih _)
      · simp

theorem yieldsOnly (w : Work τ) : w.script.YieldsOnly := by
  intro fin k m j k'
  unfold script
  split
  · next id r => exact proceed_ne_await (arrive_ne_await id r m j k')
  · next id r => exact arrive_ne_await id r m j k'
  · simp
  · next id r gen =>
      split
      · simp
      · exact proceed_ne_await (arrive_ne_await id r m j k')

theorem uses (w : Work τ) (H : ℕ → Prop) : w.script.Uses H :=
  w.yieldsOnly.uses (fun _ _ => rfl) H

/-! ### Every turn gets a worker closer to its end -/

/-- The turns a worker needs after the next barrier note. -/
def tail (w : Work τ) (id : ℕ) : ℕ → ℕ
  | 0 => 0
  | r + 1 => w.delay id (w.phases - r) + 2 + w.tail id r

/-- The turns a worker needs, those apart in which it finds the barrier closed. -/
def weight (w : Work τ) : Place → ℕ
  | .begins id r | .waits id r _ => w.delay id (w.phases - r) + 1 + w.tail id r
  | .delays id r d => d + 1 + w.tail id r

theorem proceed_lt {id r : ℕ} {go : Mem τ → Mem τ × Call Place} {m : Mem τ}
    (h : Turns.callWeight w.weight (go m).2 ≤ w.tail id r) :
    Turns.callWeight w.weight (w.proceed id r go m).2 <
      w.delay id (w.phases - r) + 1 + w.tail id r := by
  unfold proceed
  split
  · omega
  · simp only [Turns.callWeight, Call.place, weight, Option.map_some, Option.getD_some]
    omega

theorem arrive_le (id r : ℕ) (m : Mem τ) :
    Turns.callWeight w.weight (w.arrive id r m).2 ≤ w.tail id r := by
  induction r generalizing m with
  | zero => simp [arrive, Turns.callWeight, Call.place, tail]
  | succ r ih =>
      rw [arrive]
      split
      · next gate _ =>
          have := proceed_lt (ih ⟨gate, w.note id (w.phases - (r + 1)) m.data⟩)
          exact this.le.trans (by rw [tail]; omega)
      · simp only [Turns.callWeight, Call.place, weight, Option.map_some, Option.getD_some, tail]
        omega

/-- A worker that does not find the barrier closed gets closer to its end. -/
theorem script_lt (fin : ℕ → Bool) (m : Mem τ) (k : Place)
    (h : ¬ ∃ id r, k = .waits id r m.gate.generation) :
    Turns.callWeight w.weight (w.script fin k m).2 < w.weight k := by
  unfold script
  split
  · exact proceed_lt (arrive_le ..)
  · next id r => exact (arrive_le id r m).trans_lt (by rw [weight]; omega)
  · simp [Turns.callWeight, Call.place, weight]
  · next id r gen =>
      split
      · next e => exact absurd ⟨id, r, e ▸ rfl⟩ h
      · exact proceed_lt (arrive_le ..)

/-! ### The notes -/

/-- The data after the notes in `log`, worker and phase. -/
def replay (w : Work τ) (log : List (ℕ × ℕ)) (d : τ) : τ :=
  log.foldl (fun d e => w.note e.1 e.2 d) d

/-- No note is made twice, and a phase is begun only when all `n` workers have begun the phase
before it. -/
structure Phased (n P : ℕ) (log : List (ℕ × ℕ)) : Prop where
  nodup : log.Nodup
  range : ∀ e ∈ log, e.1 < n ∧ e.2 ≤ P
  ordered : ∀ l₁ i ph l₂, log = l₁ ++ (i, ph + 1) :: l₂ → ∀ j < n, (j, ph) ∈ l₁

theorem Phased.append {P i ph : ℕ} {log : List (ℕ × ℕ)} (h : Phased n P log) (hi : i < n)
    (hph : ph ≤ P) (hnew : (i, ph) ∉ log) (hall : ∀ q < ph, ∀ j < n, (j, q) ∈ log) :
    Phased n P (log ++ [(i, ph)]) := by
  refine ⟨?_, ?_, ?_⟩
  · exact h.nodup.append (List.nodup_singleton _) (List.disjoint_singleton.mpr hnew)
  · intro e he
    rcases List.mem_append.mp he with he | he
    · exact h.range e he
    · obtain rfl := List.mem_singleton.mp he
      exact ⟨hi, hph⟩
  · intro l₁ i' q l₂ he j hj
    rcases List.eq_nil_or_concat l₂ with rfl | ⟨l, z, rfl⟩
    · obtain ⟨rfl, hz⟩ := List.append_inj' he rfl
      obtain ⟨-, rfl⟩ := Prod.mk.inj (List.cons.inj hz).1
      exact hall q (Nat.lt_succ_self q) j hj
    · rw [List.concat_eq_append, ← List.cons_append, ← List.append_assoc] at he
      exact h.ordered l₁ i' q l (List.append_inj' he rfl).1 j hj

end Work

end CCoroutine.Clients
