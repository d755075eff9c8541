import CCoroutine.Clients.Launches

/-!
# Clients — Timers — Definitions

The timers of `tests/test_timer.c`: a ticker that counts the rounds of the scheduler up to a limit,
and any number of one-shot and periodic timers that look at the count.  Main creates the ticker
first, so that the timers start at tick one (at zero, if the limit is).

When a timer is due (`Timer.lastAt`), how often it fires (`Timer.fires`), and where it is before its
turn in a round (`Ahead`) and after it (`Behind`).  A one-shot timer that is cancelled does not
fire; a periodic one does not look at `cancelled`.
-/

namespace CCoroutine.Clients.Timers
open Support (Call Script Turns)

/-- The fields of `TimerState` that the timers read, and which body it is for. -/
structure Timer where
  periodic : Bool
  deadline : ℤ
  cancelled : Bool
  period : ℤ
  limit : ℤ

/-- `g_tick`, and `fired_at_tick` and `periodic_count` of each timer. -/
structure Mem where
  tick : ℕ
  fired : ℕ → ℕ
  count : ℕ → ℕ

inductive Place where
  | ticker
  /-- At the start of a timer's body. -/
  | timer (id : ℕ)
  /-- In the loop that waits, for a time from `last` on. -/
  | sleeps (id last : ℕ)
  /-- Behind the second `co_yield` of `periodic_timer`. -/
  | again (id last : ℕ)

/-- The loop and the end of `one_shot_timer`. -/
def oneShot (ts : Timer) (id start : ℕ) (m : Mem) : Mem × Call Place :=
  if (m.tick : ℤ) - start < ts.deadline then (m, .yield (.sleeps id start))
  else if ts.cancelled then (m, .ret)
  else ({ m with fired := Function.update m.fired id m.tick }, .ret)

/-- The inner loop of `periodic_timer`, and what follows it. -/
def period (ts : Timer) (id last : ℕ) (m : Mem) : Mem × Call Place :=
  if (m.tick : ℤ) - last < ts.period then (m, .yield (.sleeps id last))
  else (⟨m.tick, Function.update m.fired id m.tick, Function.update m.count id (m.count id + 1)⟩,
    .yield (.again id m.tick))

/-- The outer loop of `periodic_timer`. -/
def periodic (ts : Timer) (id last : ℕ) (m : Mem) : Mem × Call Place :=
  if (m.count id : ℤ) < ts.limit then period ts id last m else (m, .ret)

/-- `ticker`, `one_shot_timer` and `periodic_timer`. -/
def script (ts : ℕ → Timer) (maxTicks : ℕ) : Script Mem Place := fun _ k m =>
  match k with
  | .ticker =>
      if m.tick < maxTicks then ({ m with tick := m.tick + 1 }, .yield .ticker) else (m, .ret)
  | .timer id =>
      if (ts id).periodic then periodic (ts id) id m.tick m
      else if (ts id).cancelled then (m, .ret)
      else oneShot (ts id) id m.tick m
  | .sleeps id last =>
      if (ts id).periodic then period (ts id) id last m else oneShot (ts id) id last m
  | .again id last => periodic (ts id) id last m

/-- The ticker and `n` timers. -/
def bodies (n : ℕ) : List Place := .ticker :: (List.range n).map .timer

def start : Mem := ⟨0, 0, 0⟩

/-! ### The code -/

/-- Nothing but the timer `id` is changed. -/
structure Frame (id : ℕ) (m m' : Mem) : Prop where
  tick : m'.tick = m.tick
  fired : ∀ j, j ≠ id → m'.fired j = m.fired j
  count : ∀ j, j ≠ id → m'.count j = m.count j

theorem Frame.refl (id : ℕ) (m : Mem) : Frame id m m := ⟨rfl, fun _ _ => rfl, fun _ _ => rfl⟩

section Code

variable {ts : Timer} {id last : ℕ} {m : Mem}

theorem oneShot_of_lt (h : (m.tick : ℤ) - last < ts.deadline) :
    oneShot ts id last m = (m, .yield (.sleeps id last)) := if_pos h

theorem oneShot_of_ge (id : ℕ) (h : ¬ (m.tick : ℤ) - last < ts.deadline)
    (hc : ts.cancelled = false) :
    ∃ m', oneShot ts id last m = (m', .ret) ∧ Frame id m m' ∧ m'.fired id = m.tick ∧
      m'.count id = m.count id := by
  have hcode : oneShot ts id last m =
      ({ m with fired := Function.update m.fired id m.tick }, .ret) := by
    rw [oneShot, if_neg h, hc]
    rfl
  exact ⟨_, hcode, ⟨rfl, fun _ hj => Function.update_of_ne hj _ _, fun _ _ => rfl⟩,
    Function.update_self _ _ _, rfl⟩

theorem period_of_lt (h : (m.tick : ℤ) - last < ts.period) :
    period ts id last m = (m, .yield (.sleeps id last)) := if_pos h

theorem period_of_ge (id : ℕ) (h : ¬ (m.tick : ℤ) - last < ts.period) :
    ∃ m', period ts id last m = (m', .yield (.again id m.tick)) ∧ Frame id m m' ∧
      m'.fired id = m.tick ∧ m'.count id = m.count id + 1 :=
  ⟨_, if_neg h, ⟨rfl, fun _ hj => Function.update_of_ne hj _ _,
    fun _ hj => Function.update_of_ne hj _ _⟩,
    Function.update_self _ _ _, Function.update_self _ _ _⟩

theorem periodic_of_lt (h : (m.count id : ℤ) < ts.limit) :
    periodic ts id last m = period ts id last m := if_pos h

theorem periodic_of_ge (h : ¬ (m.count id : ℤ) < ts.limit) : periodic ts id last m = (m, .ret) :=
  if_neg h

end Code

theorem ticker_of_lt {ts : ℕ → Timer} {N : ℕ} {m : Mem} (h : m.tick < N) (fin : ℕ → Bool) :
    script ts N fin .ticker m = ({ m with tick := m.tick + 1 }, .yield .ticker) := if_pos h

theorem ticker_of_ge {ts : ℕ → Timer} {N : ℕ} {m : Mem} (h : ¬ m.tick < N) (fin : ℕ → Bool) :
    script ts N fin .ticker m = (m, .ret) := if_neg h

theorem yieldsOnly (ts : ℕ → Timer) (maxTicks : ℕ) : (script ts maxTicks).YieldsOnly := by
  have hone : ∀ (t : Timer) (id last : ℕ) (m : Mem) j k, (oneShot t id last m).2 ≠ .await j k := by
    intro t id last m j k
    unfold oneShot
    split
    · simp
    · split <;> simp
  have hperiod : ∀ (t : Timer) (id last : ℕ) (m : Mem) j k,
      (period t id last m).2 ≠ .await j k := by
    intro t id last m j k
    unfold period
    split <;> simp
  have hperiodic : ∀ (t : Timer) (id last : ℕ) (m : Mem) j k,
      (periodic t id last m).2 ≠ .await j k := by
    intro t id last m j k
    unfold periodic
    split
    · exact hperiod t id last m j k
    · simp
  intro fin k m j k'
  cases k with
  | ticker =>
      simp only [script]
      split <;> simp
  | timer id =>
      simp only [script]
      split
      · exact hperiodic _ _ _ _ j k'
      · split
        · simp
        · exact hone _ _ _ _ j k'
  | sleeps id last =>
      simp only [script]
      split
      · exact hperiod _ _ _ _ j k'
      · exact hone _ _ _ _ j k'
  | again id last => exact hperiodic _ _ _ _ j k'

theorem uses (ts : ℕ → Timer) (maxTicks : ℕ) (H : ℕ → Prop) : (script ts maxTicks).Uses H :=
  (yieldsOnly ts maxTicks).uses (fun _ _ => rfl) H

/-! ### When a timer is due -/

/-- How often a timer fires. -/
def Timer.fires (t : Timer) : ℕ :=
  if t.periodic then t.limit.toNat else if t.cancelled then 0 else 1

/-- The last time it fires, when it starts at `t₀`. -/
def Timer.lastAt (t : Timer) (t₀ : ℕ) : ℕ :=
  t₀ + if t.periodic then t.limit.toNat * t.period.toNat else t.deadline.toNat

section Timer

variable {t : Timer} {t₀ : ℕ}

theorem Timer.fires_of_periodic (hp : t.periodic = true) : t.fires = t.limit.toNat := if_pos hp

theorem Timer.lastAt_of_periodic (hp : t.periodic = true) :
    t.lastAt t₀ = t₀ + t.limit.toNat * t.period.toNat := by
  rw [Timer.lastAt, if_pos hp]

theorem Timer.fires_of_oneShot (hp : t.periodic = false) (hc : t.cancelled = false) :
    t.fires = 1 := by
  simp [Timer.fires, hp, hc]

theorem Timer.lastAt_of_oneShot (hp : t.periodic = false) :
    t.lastAt t₀ = t₀ + t.deadline.toNat := by
  simp [Timer.lastAt, hp]

end Timer

section Due

variable (ts : ℕ → Timer) (t₀ : ℕ) (m : Mem)

/-- A timer has not fired, or fired last when it was due. -/
inductive OnTime (id : ℕ) : Prop
  | before (hfired : m.fired id = 0) (hcount : m.count id = 0)
  | periodic (hp : (ts id).periodic = true) (hpos : 0 < m.count id)
      (hle : m.count id ≤ (ts id).fires)
      (hfired : m.fired id = t₀ + m.count id * (ts id).period.toNat)
  | oneShot (hp : (ts id).periodic = false) (hfires : (ts id).fires = 1)
      (hfired : m.fired id = (ts id).lastAt t₀)

/-- A timer is through. -/
structure Settled (id : ℕ) : Prop where
  fired : 0 < (ts id).fires → m.fired id = (ts id).lastAt t₀
  lastAt_le : 0 < (ts id).fires → (ts id).lastAt t₀ ≤ m.tick
  count : (ts id).periodic = true → m.count id = (ts id).fires

/-- A timer waits for the tick given. -/
inductive Asleep : Place → ℕ → Prop
  | oneShot {id : ℕ} (hp : (ts id).periodic = false) (hc : (ts id).cancelled = false)
      (hd : 0 < (ts id).deadline) : Asleep (.sleeps id t₀) (t₀ + (ts id).deadline.toNat)
  | periodic {id last : ℕ} (hp : (ts id).periodic = true) (hlt : (m.count id : ℤ) < (ts id).limit)
      (hlast : last = t₀ + m.count id * (ts id).period.toNat) :
      Asleep (.sleeps id last) (last + (ts id).period.toNat)
  | again {id last : ℕ} (hp : (ts id).periodic = true) (hpos : 0 < m.count id)
      (hle : (m.count id : ℤ) ≤ (ts id).limit)
      (hlast : last = t₀ + m.count id * (ts id).period.toNat) (hnow : last ≤ m.tick)
      (hfired : m.fired id = last) : Asleep (.again id last) (last + (ts id).period.toNat)

/-- A timer that has had its turn since the last tick. -/
def Behind (k : Place) : Prop := ∃ w, Asleep ts t₀ m k w ∧ m.tick < w

/-- A timer that has not: it has not started, or its time may have come. -/
def Ahead (k : Place) : Prop :=
  (∃ id, k = .timer id ∧ m.tick = t₀ ∧ m.fired id = 0 ∧ m.count id = 0) ∨
    ∃ w, Asleep ts t₀ m k w ∧ m.tick ≤ w

end Due

def Place.id : Place → ℕ
  | ticker => 0
  | timer id | sleeps id _ | again id _ => id

theorem OnTime.fired_eq_zero {ts : ℕ → Timer} {t₀ id : ℕ} {m : Mem} (h : OnTime ts t₀ m id)
    (h0 : ¬ 0 < (ts id).fires) : m.fired id = 0 := by
  cases h with
  | before hfired hcount => exact hfired
  | periodic hp hpos hle hfired => exact absurd (hpos.trans_le hle) h0
  | oneShot hp hfires hfired => exact absurd (hfires ▸ Nat.one_pos) h0

section Frame

variable {ts : ℕ → Timer} {t₀ : ℕ} {m m' : Mem} {k : Place} {id j w : ℕ}

theorem OnTime.frame (h : OnTime ts t₀ m j) (hf : Frame id m m') (hne : j ≠ id) :
    OnTime ts t₀ m' j := by
  have hfired := hf.fired j hne
  have hcount := hf.count j hne
  cases h with
  | before h0 h1 => exact .before (hfired.trans h0) (hcount.trans h1)
  | periodic hp hpos hle hf =>
      exact .periodic hp (hcount ▸ hpos) (hcount ▸ hle) (hfired.trans (hcount ▸ hf))
  | oneShot hp h1 hf => exact .oneShot hp h1 (hfired.trans hf)

theorem Settled.frame (h : Settled ts t₀ m j) (hf : Frame id m m') (hne : j ≠ id) :
    Settled ts t₀ m' j where
  fired hpos := (hf.fired j hne).trans (h.fired hpos)
  lastAt_le hpos := hf.tick ▸ h.lastAt_le hpos
  count hp := (hf.count j hne).trans (h.count hp)

theorem Asleep.frame (h : Asleep ts t₀ m k w) (hf : Frame id m m') (hne : k.id ≠ id) :
    Asleep ts t₀ m' k w := by
  cases h with
  | oneShot hp hc hd => exact .oneShot hp hc hd
  | @periodic j last hp hlt hlast =>
      have hcount := (hf.count j hne).symm
      exact .periodic hp (hcount ▸ hlt) (hcount ▸ hlast)
  | @again j last hp hpos hle hlast hnow hfired =>
      have hcount := (hf.count j hne).symm
      exact .again hp (hcount ▸ hpos) (hcount ▸ hle) (hcount ▸ hlast) (hf.tick ▸ hnow)
        ((hf.fired j hne).trans hfired)

theorem Behind.frame (h : Behind ts t₀ m k) (hf : Frame id m m') (hne : k.id ≠ id) :
    Behind ts t₀ m' k := by
  obtain ⟨w, hw, hlt⟩ := h
  exact ⟨w, hw.frame hf hne, hf.tick ▸ hlt⟩

theorem Ahead.frame (h : Ahead ts t₀ m k) (hf : Frame id m m') (hne : k.id ≠ id) :
    Ahead ts t₀ m' k := by
  rcases h with ⟨j, rfl, htick, hfired, hcount⟩ | ⟨w, hw, hle⟩
  · exact .inl ⟨j, rfl, hf.tick.trans htick, (hf.fired j hne).trans hfired,
      (hf.count j hne).trans hcount⟩
  · exact .inr ⟨w, hw.frame hf hne, hf.tick ▸ hle⟩

theorem Behind.ahead (h : Behind ts t₀ m k) : Ahead ts t₀ m k := by
  obtain ⟨w, hw, hlt⟩ := h
  exact .inr ⟨w, hw, hlt.le⟩

/-- A tick later. -/
theorem Behind.tick (h : Behind ts t₀ m k) : Ahead ts t₀ { m with tick := m.tick + 1 } k := by
  obtain ⟨w, hw, hlt⟩ := h
  refine .inr ⟨w, ?_, hlt⟩
  cases hw with
  | oneShot hp hc hd => exact .oneShot hp hc hd
  | periodic hp hl hlast => exact .periodic hp hl hlast
  | again hp hpos hle hlast hnow hfired =>
      exact .again hp hpos hle hlast (hnow.trans (Nat.le_succ _)) hfired

end Frame

end CCoroutine.Clients.Timers
