import CCoroutine.Clients.Timers.Rounds
import Mathlib.Algebra.Order.BigOperators.Group.Finset

/-!
# Clients — Timers — Termination

A timer fires exactly when it is due, a one-shot timer after its deadline and a periodic one after
each period, and a one-shot timer that is cancelled never does (`fires_on_time`).  The tests allow
for a tick or two more.  What they do not show is that `co_run` does not return when a timer is due
after the last tick: from then on the timer spins (`lt_lastAt_of_spins`).
-/

namespace CCoroutine.Clients.Timers
open Support (Call Script Turns)

/-! ### Every turn gets closer to the last tick -/

def weight : Place → ℕ
  | .ticker | .sleeps _ _ => 1
  | .timer _ | .again _ _ => 2

/-- The ticks and the periods to come. -/
def left (ts : ℕ → Timer) (n maxTicks : ℕ) (m : Mem) : ℕ :=
  (maxTicks - m.tick) + 2 * ∑ id ∈ Finset.range n, ((ts id).limit.toNat - m.count id)

section Left

variable {ts : ℕ → Timer} {n N t₀ id last : ℕ} {m m' : Mem} {k : Place}

theorem left_frame (hf : Frame id m m') (hcount : m'.count id = m.count id) :
    left ts n N m' = left ts n N m := by
  have hall : m'.count = m.count := by
    funext j
    by_cases hj : j = id
    · exact hj ▸ hcount
    · exact hf.count j hj
  rw [left, left, hall, hf.tick]

theorem left_fire (hf : Frame id m m') (hcount : m'.count id = m.count id + 1)
    (hlt : (m.count id : ℤ) < (ts id).limit) (hid : id < n) :
    2 + left ts n N m' ≤ left ts n N m := by
  have hsum : ∑ j ∈ Finset.range n, ((ts j).limit.toNat - m'.count j) <
      ∑ j ∈ Finset.range n, ((ts j).limit.toNat - m.count j) := by
    refine Finset.sum_lt_sum (fun j _ => ?_) ⟨id, Finset.mem_range.mpr hid, ?_⟩
    · by_cases hj : j = id
      · subst hj
        omega
      · rw [hf.count j hj]
    · omega
  rw [left, left, hf.tick]
  omega

/-- The timer goes to sleep, or something is done. -/
def Works (ts : ℕ → Timer) (n N id last : ℕ) (m : Mem) (r : Mem × Call Place) : Prop :=
  r = (m, .yield (.sleeps id last)) ∨ Turns.callWeight weight r.2 + left ts n N r.1 ≤ left ts n N m

theorem works_oneShot : Works ts n N id last m (oneShot (ts id) id last m) := by
  by_cases h : (m.tick : ℤ) - last < (ts id).deadline
  · exact .inl (oneShot_of_lt h)
  · right
    cases hc : (ts id).cancelled with
    | true =>
        rw [oneShot, if_neg h, if_pos hc]
        exact (Nat.zero_add _).le
    | false =>
        obtain ⟨m', hcode, hframe, -, hcount⟩ := oneShot_of_ge id h hc
        rw [hcode]
        exact (Nat.zero_add _).trans_le (left_frame hframe hcount).le

theorem works_period (hid : id < n) (hlt : (m.count id : ℤ) < (ts id).limit) :
    Works ts n N id last m (period (ts id) id last m) := by
  by_cases h : (m.tick : ℤ) - last < (ts id).period
  · exact .inl (period_of_lt h)
  · obtain ⟨m', hcode, hframe, -, hcount⟩ := period_of_ge id h
    rw [hcode]
    exact .inr (left_fire hframe hcount hlt hid)

theorem works_periodic (hid : id < n) : Works ts n N id last m (periodic (ts id) id last m) := by
  by_cases hlt : (m.count id : ℤ) < (ts id).limit
  · rw [periodic_of_lt hlt]
    exact works_period hid hlt
  · rw [periodic_of_ge hlt]
    exact .inr (Nat.zero_add _).le

theorem works_timer (hid : id < n) (fin : ℕ → Bool) :
    Works ts n N id m.tick m (script ts N fin (.timer id) m) := by
  simp only [script]
  split
  · exact works_periodic hid
  · split
    · exact .inr (Nat.zero_add _).le
    · exact works_oneShot

theorem works_sleeps (hid : id < n) (hk : Ahead ts t₀ m (.sleeps id last)) (fin : ℕ → Bool) :
    Works ts n N id last m (script ts N fin (.sleeps id last) m) := by
  rcases hk with ⟨j, hj, -⟩ | ⟨w, hw, -⟩
  · cases hj
  · cases hw with
    | oneShot hp hc hd =>
        simp only [script, hp]
        exact works_oneShot
    | periodic hp hlt hlast =>
        simp only [script, hp]
        exact works_period hid hlt

theorem Works.lt {r : Mem × Call Place} (h : Works ts n N id last m r) :
    Turns.callWeight weight r.2 + left ts n N r.1 < 2 + left ts n N m := by
  rcases h with rfl | h
  · exact Nat.add_lt_add_right Nat.one_lt_two _
  · exact h.trans_lt (Nat.lt_add_of_pos_left Nat.two_pos)

theorem script_lt (fin : ℕ → Bool) (m : Mem) (i : ℕ) (k : Place) (rest : List (ℕ × Place))
    (h : InRounds ts n N m ((i, k) :: rest)) (hs : script ts N fin k m ≠ (m, .yield k)) :
    Turns.callWeight weight (script ts N fin k m).2 + left ts n N (script ts N fin k m).1 <
      weight k + left ts n N m := by
  cases k with
  | ticker =>
      by_cases hlt : m.tick < N
      · rw [ticker_of_lt hlt]
        refine Nat.add_lt_add_left (Nat.add_lt_add_right ?_ _) _
        show N - (m.tick + 1) < N - m.tick
        omega
      · rw [ticker_of_ge hlt]
        exact Nat.add_lt_add_right Nat.zero_lt_one _
  | timer id =>
      obtain ⟨-, hid⟩ := h.head nofun
      exact (works_timer hid fin).lt
  | sleeps id last =>
      obtain ⟨hk, hid⟩ := h.head nofun
      rcases works_sleeps hid hk fin with hsleeps | hworks
      · exact absurd hsleeps hs
      · exact hworks.trans_lt (Nat.lt_add_of_pos_left Nat.one_pos)
  | again id last =>
      obtain ⟨-, hid⟩ := h.head nofun
      exact (works_periodic hid).lt

/-! ### Spinning timers -/

theorem ticker_not_spins (fin : ℕ → Bool) : script ts N fin .ticker m ≠ (m, .yield .ticker) := by
  by_cases hlt : m.tick < N
  · rw [ticker_of_lt hlt]
    intro h
    exact Nat.succ_ne_self m.tick (congrArg (fun r => r.1.tick) h)
  · rw [ticker_of_ge hlt]
    exact nofun

theorem again_not_spins (hid : id < n) (fin : ℕ → Bool) :
    script ts N fin (.again id last) m ≠ (m, .yield (.again id last)) := by
  intro h
  have hworks : Works ts n N id last m (script ts N fin (.again id last) m) := works_periodic hid
  rw [h] at hworks
  rcases hworks with hsleeps | hle
  · cases hsleeps
  · exact absurd hle (Nat.lt_add_of_pos_left Nat.two_pos).not_ge

theorem Asleep.lt_lastAt {w : ℕ} (h : Asleep ts t₀ m k w) (hk : ∀ id last, k ≠ .again id last) :
    0 < (ts k.id).fires ∧ w ≤ (ts k.id).lastAt t₀ := by
  cases h with
  | @oneShot id hp hc hd =>
      exact ⟨(Timer.fires_of_oneShot hp hc).symm ▸ Nat.one_pos, (Timer.lastAt_of_oneShot hp).ge⟩
  | @periodic id last hp hlt hlast =>
      have hle : m.count id + 1 ≤ (ts id).limit.toNat := by omega
      refine ⟨?_, ?_⟩
      · rw [Place.id, Timer.fires_of_periodic hp]
        exact (Nat.succ_pos _).trans_le hle
      · calc last + (ts id).period.toNat = t₀ + (m.count id + 1) * (ts id).period.toNat := by
              rw [hlast, Nat.add_mul, Nat.one_mul, Nat.add_assoc]
          _ ≤ t₀ + (ts id).limit.toNat * (ts id).period.toNat :=
              Nat.add_le_add_left (Nat.mul_le_mul_right _ hle) _
          _ = (ts id).lastAt t₀ := (Timer.lastAt_of_periodic hp).symm
  | @again id last => exact absurd rfl (hk id last)

/-- A timer that spins is due later on. -/
theorem lt_lastAt_of_spins {A : List (ℕ × Place)} {i : ℕ} {fin : ℕ → Bool}
    (hperiod : ∀ id < n, (ts id).periodic = true → 0 < (ts id).period)
    (h : Rounds ts t₀ n N m A []) (hx : (i, k) ∈ A) (hs : script ts N fin k m = (m, .yield k)) :
    k.id < n ∧ 0 < (ts k.id).fires ∧ m.tick < (ts k.id).lastAt t₀ := by
  have hid : k.id < n := h.lt (i, k) (List.mem_append_left _ hx)
  have hcall := (turned (N := N) (hperiod _ hid) h.started (h.ahead _ hx) (h.onTime _ hid) fin).call
  rw [hs] at hcall
  obtain ⟨hret, -⟩ | ⟨k', hk, -, w, hw, hlt⟩ := hcall
  · cases hret
  · obtain rfl := Call.yield.inj hk
    have hagain : ∀ id last, k ≠ .again id last := by
      rintro id last rfl
      exact again_not_spins hid fin hs
    obtain ⟨hpos, hle⟩ := Asleep.lt_lastAt hw hagain
    exact ⟨hid, hpos, hlt.trans_le hle⟩

/-- When all spin, the ticker is through. -/
theorem InRounds.last_of_spins {line : List (ℕ × Place)} {fin : ℕ → Bool}
    (h : InRounds ts n N m line) (hs : ∀ x ∈ line, script ts N fin x.2 m = (m, .yield x.2)) :
    Rounds ts (min 1 N) n N m line [] ∧ m.tick = N := by
  cases h with
  | first hT => exact absurd (hs _ List.mem_cons_self) (ticker_not_spins fin)
  | ticks h =>
      exact absurd (hs _ (List.mem_append_right _ List.mem_cons_self)) (ticker_not_spins fin)
  | last h htick => exact ⟨h, htick⟩

end Left

/-- **Timers fire when they are due.**  At no step has a timer fired at another time.  When every
timer is due by the last tick, `co_run` returns and every timer that has to fire has done so, as
often as it has to; when one is not, `co_run` does not return. -/
theorem fires_on_time (ts : ℕ → Timer) (n maxTicks : ℕ) (L : Launch (bodies n))
    (hperiod : ∀ id < n, (ts id).periodic = true → 0 < (ts id).period) :
    L.Always (script ts maxTicks) start (fun m =>
      m.tick ≤ maxTicks ∧ ∀ id < n, OnTime ts (min 1 maxTicks) m id) ∧
    ((∀ id < n, 0 < (ts id).fires → (ts id).lastAt (min 1 maxTicks) ≤ maxTicks) →
      L.Completes (script ts maxTicks) start fun m => m.tick = maxTicks ∧ ∀ id < n,
        m.fired id = (if 0 < (ts id).fires then (ts id).lastAt (min 1 maxTicks) else 0) ∧
        ((ts id).periodic = true → m.count id = (ts id).fires)) ∧
    ((∃ id < n, 0 < (ts id).fires ∧ maxTicks < (ts id).lastAt (min 1 maxTicks)) →
      L.Diverges (script ts maxTicks) start) := by
  have hstart : InRounds ts n maxTicks (L.turns start).mem (L.turns start).line := by
    have hline : (L.turns start).line.map Prod.snd = bodies n := L.turns_line_snd _
    obtain ⟨⟨g, k⟩, T, hl, rfl, hT⟩ := List.map_eq_cons_iff.mp hline
    rw [hl]
    exact .first hT
  have hf := yieldsOnly ts maxTicks
  have huse := uses ts maxTicks L.Handle
  refine ⟨L.always_of_kept huse hf (InRounds.kept hperiod) hstart fun m line h => h.safe, ?_⟩
  -- the last tick, with only those timers left that are due later
  obtain ⟨d, -, hd, hspin, hdone, hloop⟩ := L.exists_settled huse hf (InRounds.kept hperiod) hstart
    weight (left ts n maxTicks) (fun fin m k h => h) script_lt
  obtain ⟨hlast, htick⟩ := hd.last_of_spins hspin
  constructor
  · intro hdue
    have hl : d.line = [] := by
      refine List.eq_nil_iff_forall_not_mem.mpr fun x hx => ?_
      obtain ⟨hid, hpos, hlt⟩ := lt_lastAt_of_spins hperiod hlast hx (hspin x hx)
      exact hlt.not_ge ((hdue _ hid hpos).trans htick.ge)
    refine (hdone hl).imp ?_
    rintro m rfl
    refine ⟨htick, fun id hid => ?_⟩
    have hsettled := hlast.settled id hid (by simp [hl, ids])
    refine ⟨?_, hsettled.count⟩
    split
    · next hpos => exact hsettled.fired hpos
    · next hnot => exact (hlast.onTime id hid).fired_eq_zero hnot
  · rintro ⟨id, hid, hpos, hlt⟩
    refine hloop fun hl => ?_
    have hsettled := hlast.settled id hid (by simp [hl, ids])
    exact hlt.not_ge ((hsettled.lastAt_le hpos).trans htick.le)

/-- The periodic timer of `test_periodic_timer` and the timer of `test_single_timer`. -/
def twoTimers (id : ℕ) : Timer :=
  if id = 0 then ⟨true, 0, false, 4, 3⟩ else ⟨false, 5, false, 0, 0⟩

theorem fires_on_time_twoTimers :
    (Launch.first (bodies 2) (by decide)).Completes (script twoTimers 50) start fun m =>
      m.fired 0 = 13 ∧ m.count 0 = 3 ∧ m.fired 1 = 6 := by
  have hperiod : ∀ id < 2, (twoTimers id).periodic = true → 0 < (twoTimers id).period := by decide
  have hdue : ∀ id < 2, 0 < (twoTimers id).fires → (twoTimers id).lastAt (min 1 50) ≤ 50 := by
    decide
  refine ((fires_on_time twoTimers 2 50 _ hperiod).2.1 hdue).imp ?_
  rintro m ⟨-, h⟩
  obtain ⟨hfired, hcount⟩ := h 0 (by decide)
  exact ⟨hfired, hcount rfl, (h 1 (by decide)).1⟩

end CCoroutine.Clients.Timers
