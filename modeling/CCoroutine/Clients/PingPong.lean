import CCoroutine.Clients.Launches

/-!
# Clients — PingPong

`ping` and `pong` of `examples/ping_pong.c`, which count up to a limit in turns.  `pong` yields
before it counts for the first time, so `ping` has the first two numbers; from then on they
alternate (`takes_turns_from_two`).  The output that the comment at the head of the source gives,
`[ping] 1`, `[pong] 2`, is not what the program prints.
-/

namespace CCoroutine.Clients.PingPong
open Support (Call Script Turns)

inductive Player where
  | ping
  | pong
  deriving DecidableEq

/-- `pp_state` without the limit, and what has been printed. -/
structure Mem where
  counter : ℕ
  done : Bool
  log : List (Player × ℕ)

inductive Place where
  | ping
  | pong
  /-- Behind the `co_yield` of `pong`. -/
  | pongBack

/-- `st->counter += 1` and the `printf`. -/
def Mem.count (m : Mem) (who : Player) : Mem :=
  { m with counter := m.counter + 1, log := m.log ++ [(who, m.counter + 1)] }

/-- The test of the loop of `pong`. -/
def pong (limit : ℕ) (m : Mem) : Mem × Call Place :=
  if m.counter < limit && !m.done then (m, .yield .pongBack) else (m, .ret)

/-- `ping` and `pong`. -/
def script (limit : ℕ) : Script Mem Place := fun _ k m =>
  match k with
  | .ping =>
      if m.counter < limit then (m.count .ping, .yield .ping) else ({ m with done := true }, .ret)
  | .pong => pong limit m
  | .pongBack => if m.counter ≥ limit then (m, .ret) else pong limit (m.count .pong)

def bodies : List Place := [.ping, .pong]

/-! ### The code -/

section Code

variable {limit : ℕ} {m : Mem} {fin : ℕ → Bool}

theorem ping_of_lt (h : m.counter < limit) :
    script limit fin .ping m = (m.count .ping, .yield .ping) := if_pos h

theorem ping_of_end (h : m.counter = limit) :
    script limit fin .ping m = ({ m with done := true }, .ret) := if_neg h.not_lt

theorem pong_of_lt (h : m.counter < limit) (hd : m.done = false) :
    pong limit m = (m, .yield .pongBack) := by
  simp [pong, h, hd]

theorem pong_of_end (h : m.counter = limit) : pong limit m = (m, .ret) := by
  simp [pong, h]

theorem pongBack_of_lt (h : m.counter < limit) :
    script limit fin .pongBack m = pong limit (m.count .pong) := if_neg h.not_ge

theorem pongBack_of_end (h : m.counter = limit) : script limit fin .pongBack m = (m, .ret) :=
  if_pos h.ge

theorem pong_ne_await (j : ℕ) (k : Place) : (pong limit m).2 ≠ .await j k := by
  unfold pong
  split <;> simp

theorem yieldsOnly (limit : ℕ) : (script limit).YieldsOnly := by
  intro fin k m j k'
  cases k with
  | ping =>
      simp only [script]
      split <;> simp
  | pong => exact pong_ne_await j k'
  | pongBack =>
      simp only [script]
      split
      · simp
      · exact pong_ne_await j k'

theorem uses (limit : ℕ) (H : ℕ → Prop) : (script limit).Uses H :=
  (yieldsOnly limit).uses (fun _ _ => rfl) H

end Code

/-! ### Whose number it is -/

/-- Who prints the number `k`. -/
def printer (k : ℕ) : Player := if k % 2 = 1 ∧ k ≠ 1 then .pong else .ping

/-- The output, up to the number `c`. -/
def output (c : ℕ) : List (Player × ℕ) := (List.range' 1 c).map fun k => (printer k, k)

example : output 4 = [(.ping, 1), (.ping, 2), (.pong, 3), (.ping, 4)] := by decide

theorem output_succ (c : ℕ) : output (c + 1) = output c ++ [(printer (c + 1), c + 1)] := by
  rw [output, List.range'_concat, List.map_append, Nat.one_mul, Nat.add_comm 1 c]
  rfl

/-- Where the two are, `p` and `q` their numbers, when the counter is at `c`. -/
inductive Phase (limit p q : ℕ) (done : Bool) : ℕ → List (ℕ × Place) → Prop
  | start (h : done = false) : Phase limit p q done 0 [(p, .ping), (q, .pong)]
  | first (h : done = false) (hle : 1 ≤ limit) : Phase limit p q done 1 [(q, .pong), (p, .ping)]
  | ping {c : ℕ} (h : done = false) (hlt : c < limit) (hodd : c % 2 = 1) :
      Phase limit p q done c [(p, .ping), (q, .pongBack)]
  | pong {c : ℕ} (h : done = false) (hle : c ≤ limit) (hpos : 0 < c) (heven : c % 2 = 0) :
      Phase limit p q done c [(q, .pongBack), (p, .ping)]
  | pingLeft : Phase limit p q done limit [(p, .ping)]
  | pongLeft : Phase limit p q done limit [(q, .pong)]
  | over : Phase limit p q done limit []

/-- What holds between two turns. -/
structure Alternates (limit p q : ℕ) (m : Mem) (line : List (ℕ × Place)) : Prop where
  log : m.log = output m.counter
  phase : Phase limit p q m.done m.counter line

theorem count_log {m : Mem} (h : m.log = output m.counter) {who : Player}
    (hwho : printer (m.counter + 1) = who) : (m.count who).log = output (m.count who).counter := by
  show m.log ++ [(who, m.counter + 1)] = output (m.counter + 1)
  rw [output_succ, h, hwho]

theorem printer_of_even {k : ℕ} (h : k % 2 = 0) : printer k = .ping := by
  refine if_neg fun hk => ?_
  cases h.symm.trans hk.1

theorem printer_of_odd {k : ℕ} (h : k % 2 = 1) (hk : k ≠ 1) : printer k = .pong := if_pos ⟨h, hk⟩

namespace Alternates

variable {limit p q : ℕ} {m : Mem}

/-- `pong` tests whether to go on, with `ping` behind it in the line. -/
theorem goesOn (hlog : m.log = output m.counter) (hd : m.done = false) (hle : m.counter ≤ limit)
    (hodd : m.counter % 2 = 1) :
    Alternates limit p q (PingPong.pong limit m).1
      (Turns.settle q [(p, .ping)] (PingPong.pong limit m).2) := by
  rcases Nat.lt_or_eq_of_le hle with hlt | heq
  · rw [pong_of_lt hlt hd]
    exact ⟨hlog, .ping hd hlt hodd⟩
  · rw [pong_of_end heq]
    exact ⟨hlog, heq ▸ .pingLeft⟩

theorem kept (limit p q : ℕ) : Turns.Kept (script limit) (Alternates limit p q) := by
  rintro m i k rest fin - ⟨hlog, hphase⟩
  generalize hc : m.counter = c at hphase
  cases hphase with
  | start hd =>
      rcases Nat.eq_zero_or_pos limit with rfl | hpos
      · rw [ping_of_end hc]
        exact ⟨hlog, hc ▸ .pongLeft⟩
      · rw [ping_of_lt (hc ▸ hpos)]
        refine ⟨count_log hlog (by rw [hc]; rfl), ?_⟩
        show Phase limit p q m.done (m.counter + 1) _
        rw [hc]
        exact .first hd hpos
  | first hd hle => exact goesOn hlog hd (hc ▸ hle) (by rw [hc])
  | ping hd hlt hodd =>
      have heven : (c + 1) % 2 = 0 := by omega
      rw [ping_of_lt (hc ▸ hlt)]
      refine ⟨count_log hlog (by rw [hc]; exact printer_of_even heven), ?_⟩
      show Phase limit p q m.done (m.counter + 1) _
      rw [hc]
      exact .pong hd hlt (Nat.succ_pos c) heven
  | pong hd hle hpos heven =>
      rcases Nat.lt_or_eq_of_le hle with hlt | heq
      · have hodd : (c + 1) % 2 = 1 := by omega
        have hlog' := count_log hlog (hc ▸ printer_of_odd hodd (Nat.succ_ne_succ_iff.mpr hpos.ne'))
        rw [pongBack_of_lt (hc ▸ hlt)]
        refine goesOn hlog' hd ?_ ?_
        · show m.counter + 1 ≤ limit
          rw [hc]
          exact hlt
        · show (m.counter + 1) % 2 = 1
          rw [hc]
          exact hodd
      · rw [pongBack_of_end (hc.trans heq)]
        refine ⟨hlog, ?_⟩
        rw [hc, heq]
        exact .pingLeft
  | pingLeft =>
      rw [ping_of_end hc]
      exact ⟨hlog, hc ▸ .over⟩
  | pongLeft =>
      show Alternates limit p q (PingPong.pong limit m).1
        (Turns.settle q [] (PingPong.pong limit m).2)
      rw [pong_of_end hc]
      exact ⟨hlog, hc ▸ .over⟩

end Alternates

def weight : Place → ℕ
  | .ping | .pongBack => 1
  | .pong => 2

theorem pong_le (limit : ℕ) (m : Mem) :
    Turns.callWeight weight (pong limit m).2 + 2 * (limit - (pong limit m).1.counter) ≤
      1 + 2 * (limit - m.counter) := by
  unfold pong
  split
  · exact le_rfl
  · exact Nat.add_le_add_right (Nat.zero_le 1) _

/-- Every turn counts or gets a player closer to its end. -/
theorem script_lt (limit : ℕ) (fin : ℕ → Bool) (m : Mem) (k : Place) :
    Turns.callWeight weight (script limit fin k m).2 +
      2 * (limit - (script limit fin k m).1.counter) < weight k + 2 * (limit - m.counter) := by
  cases k with
  | ping =>
      by_cases h : m.counter < limit
      · rw [ping_of_lt h]
        show 1 + 2 * (limit - (m.counter + 1)) < 1 + 2 * (limit - m.counter)
        omega
      · rw [show script limit fin .ping m = ({ m with done := true }, .ret) from if_neg h]
        exact Nat.add_lt_add_right Nat.zero_lt_one _
  | pong => exact (pong_le limit m).trans_lt (Nat.add_lt_add_right Nat.one_lt_two _)
  | pongBack =>
      by_cases h : m.counter < limit
      · rw [pongBack_of_lt h]
        refine (pong_le limit (m.count .pong)).trans_lt ?_
        show 1 + 2 * (limit - (m.counter + 1)) < 1 + 2 * (limit - m.counter)
        omega
      · rw [show script limit fin .pongBack m = (m, .ret) from if_pos (not_lt.mp h)]
        exact Nat.add_lt_add_right Nat.zero_lt_one _

/-- **Ping and pong.**  For every limit, the numbers are printed in order, the first two by `ping`
and then in turns, and `co_run` returns when the limit is reached. -/
theorem takes_turns_from_two (limit : ℕ) (L : Launch bodies) :
    L.Always (script limit) ⟨0, false, []⟩ (fun m => m.log = output m.counter) ∧
    L.Completes (script limit) ⟨0, false, []⟩ fun m =>
      m.counter = limit ∧ m.log = output limit := by
  have hstart : Alternates limit (L.s.all.length + 1) (L.s.all.length + 2)
      (L.turns (⟨0, false, []⟩ : Mem)).mem (L.turns (⟨0, false, []⟩ : Mem)).line :=
    ⟨rfl, .start rfl⟩
  have hkept := Alternates.kept limit (L.s.all.length + 1) (L.s.all.length + 2)
  constructor
  · exact L.always_of_kept (uses limit _) (yieldsOnly limit) hkept hstart fun m line h => h.log
  · obtain ⟨d, -, h, hstuck, hdone, -⟩ := L.exists_settled (uses limit _) (yieldsOnly limit) hkept
      hstart weight (fun m => 2 * (limit - m.counter)) (fun _ _ _ (h : False) => h.elim)
      fun fin m _ k _ _ _ => script_lt limit fin m k
    have hl : d.line = [] := List.eq_nil_iff_forall_not_mem.mpr hstuck
    have hcounter : d.mem.counter = limit := by
      have hphase := h.phase
      rw [hl] at hphase
      generalize d.mem.counter = c at hphase
      cases hphase
      rfl
    refine (hdone hl).imp ?_
    rintro _ rfl
    exact ⟨hcounter, h.log.trans (congrArg output hcounter)⟩

/-- The run of the comment at the head of the source. -/
theorem takes_turns_from_two_four :
    (Launch.first bodies (by decide)).Completes (script 4) ⟨0, false, []⟩ fun m =>
      m.counter = 4 ∧ m.log = [(.ping, 1), (.ping, 2), (.pong, 3), (.ping, 4)] :=
  (takes_turns_from_two 4 _).2

end CCoroutine.Clients.PingPong
