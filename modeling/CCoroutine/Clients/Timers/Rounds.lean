import CCoroutine.Clients.Timers.Definitions

/-!
# Clients — Timers — Rounds

Between two ticks every timer has one turn.  The turn of a timer that is due now fires it, and that
of any other one does not (`turned`); so the timers in front of the ticker in the line have
yet to look at the tick, and those behind it have (`Rounds`, `InRounds.kept`).
-/

namespace CCoroutine.Clients.Timers
open Support (Call Script Turns)

/-! ### The turn of a timer -/

/-- What the turn of the timer `id` leaves. -/
structure Turned (ts : ℕ → Timer) (t₀ id : ℕ) (m : Mem) (r : Mem × Call Place) : Prop where
  frame : Frame id m r.1
  onTime : OnTime ts t₀ r.1 id
  call : r.2 = .ret ∧ Settled ts t₀ r.1 id ∨
    ∃ k, r.2 = .yield k ∧ k.id = id ∧ Behind ts t₀ r.1 k

section Turn

variable {ts : ℕ → Timer} {t₀ N id last : ℕ} {m : Mem} {k : Place}

theorem turned_oneShot (hp : (ts id).periodic = false) (hc : (ts id).cancelled = false)
    (hon : OnTime ts t₀ m id) (hge : t₀ ≤ m.tick) (hle : m.tick ≤ t₀ + (ts id).deadline.toNat) :
    Turned ts t₀ id m (oneShot (ts id) id t₀ m) := by
  by_cases h : (m.tick : ℤ) - t₀ < (ts id).deadline
  · rw [oneShot_of_lt h]
    refine ⟨.refl id m, hon, .inr ⟨_, rfl, rfl, _, .oneShot hp hc ?_, ?_⟩⟩
    · omega
    · show m.tick < t₀ + (ts id).deadline.toNat
      omega
  · obtain ⟨m', hcode, hframe, hfired, -⟩ := oneShot_of_ge id h hc
    rw [hcode]
    have hlast : m.tick = (ts id).lastAt t₀ := by
      rw [Timer.lastAt_of_oneShot hp]
      omega
    refine ⟨hframe, .oneShot hp (Timer.fires_of_oneShot hp hc) (hfired.trans hlast),
      .inl ⟨rfl, fun _ => hfired.trans hlast, fun _ => (hframe.tick.trans hlast).ge, ?_⟩⟩
    intro htrue
    cases hp.symm.trans htrue

theorem turned_period (hp : (ts id).periodic = true) (hperiod : 0 < (ts id).period)
    (hon : OnTime ts t₀ m id) (hlt : (m.count id : ℤ) < (ts id).limit)
    (hlast : last = t₀ + m.count id * (ts id).period.toNat)
    (hle : m.tick ≤ last + (ts id).period.toNat) :
    Turned ts t₀ id m (period (ts id) id last m) := by
  by_cases h : (m.tick : ℤ) - last < (ts id).period
  · rw [period_of_lt h]
    refine ⟨.refl id m, hon, .inr ⟨_, rfl, rfl, _, .periodic hp hlt hlast, ?_⟩⟩
    show m.tick < last + (ts id).period.toNat
    omega
  · obtain ⟨m', hcode, hframe, hfired, hcount⟩ := period_of_ge id h
    rw [hcode]
    have htick : m.tick = t₀ + m'.count id * (ts id).period.toNat := by
      rw [hcount, Nat.add_mul, Nat.one_mul, ← Nat.add_assoc, ← hlast]
      omega
    have hpos : 0 < m'.count id := hcount ▸ Nat.succ_pos _
    have hlim : (m'.count id : ℤ) ≤ (ts id).limit := by
      rw [hcount]
      exact hlt
    have hle : m'.count id ≤ (ts id).fires := by
      rw [Timer.fires_of_periodic hp]
      omega
    refine ⟨hframe, .periodic hp hpos hle (hfired.trans htick),
      .inr ⟨_, rfl, rfl, _, .again hp hpos hlim htick hframe.tick.ge hfired, ?_⟩⟩
    rw [hframe.tick]
    omega

/-- The test of the outer loop, right after the start or after a period. -/
theorem turned_periodic (hp : (ts id).periodic = true) (hperiod : 0 < (ts id).period)
    (hon : OnTime ts t₀ m id) (hle : m.count id ≤ (ts id).fires)
    (hlast : last = t₀ + m.count id * (ts id).period.toNat) (hnow : last ≤ m.tick)
    (hfired : 0 < m.count id → m.fired id = last) (hdue : m.tick ≤ last + (ts id).period.toNat) :
    Turned ts t₀ id m (periodic (ts id) id last m) := by
  by_cases hlt : (m.count id : ℤ) < (ts id).limit
  · rw [periodic_of_lt hlt]
    exact turned_period hp hperiod hon hlt hlast hdue
  · rw [periodic_of_ge hlt]
    have hcount : m.count id = (ts id).limit.toNat := by
      rw [Timer.fires_of_periodic hp] at hle
      omega
    have hat : last = (ts id).lastAt t₀ := by
      rw [Timer.lastAt_of_periodic hp, hlast, hcount]
    have hfires : (ts id).fires = m.count id := (Timer.fires_of_periodic hp).trans hcount.symm
    exact ⟨.refl id m, hon, .inl ⟨rfl, fun hpos => (hfired (hfires ▸ hpos)).trans hat,
      fun _ => hat ▸ hnow, fun _ => hfires.symm⟩⟩

/-- **The turn of a timer**: it fires when it is due, and not before. -/
theorem turned (hperiod : (ts k.id).periodic = true → 0 < (ts k.id).period) (hge : t₀ ≤ m.tick)
    (hk : Ahead ts t₀ m k) (hon : OnTime ts t₀ m k.id) (fin : ℕ → Bool) :
    Turned ts t₀ k.id m (script ts N fin k m) := by
  rcases hk with ⟨id, rfl, htick, hfired, hcount⟩ | ⟨w, hw, hle⟩
  · show Turned ts t₀ id m (if (ts id).periodic then _ else if (ts id).cancelled then _ else _)
    rw [htick]
    cases hp : (ts id).periodic with
    | true =>
        refine turned_periodic hp (hperiod hp) hon ?_ ?_ hge ?_ ?_
        · exact hcount ▸ Nat.zero_le _
        · rw [hcount, Nat.zero_mul, Nat.add_zero]
        · exact fun hpos => absurd hcount hpos.ne'
        · exact htick ▸ Nat.le_add_right _ _
    | false =>
        cases hc : (ts id).cancelled with
        | true =>
            have h0 : (ts id).fires = 0 := by simp [Timer.fires, hp, hc]
            have hnot : ¬ 0 < (ts id).fires := h0.not_gt
            refine ⟨.refl id m, hon, .inl ⟨rfl, fun h => absurd h hnot, fun h => absurd h hnot, ?_⟩⟩
            intro htrue
            cases hp.symm.trans htrue
        | false => exact turned_oneShot hp hc hon hge (htick ▸ Nat.le_add_right _ _)
  · cases hw with
    | @oneShot id hp hc hd =>
        have hcode : script ts N fin (.sleeps id t₀) m = oneShot (ts id) id t₀ m := by
          simp [script, hp]
        exact hcode ▸ turned_oneShot hp hc hon hge hle
    | @periodic id last hp hlt hlast =>
        have hcode : script ts N fin (.sleeps id last) m = period (ts id) id last m := by
          simp [script, hp]
        exact hcode ▸ turned_period hp (hperiod hp) hon hlt hlast hle
    | @again id last hp hpos hlim hlast hnow hfired =>
        have hfires : m.count id ≤ (ts id).fires := by
          rw [Timer.fires_of_periodic hp]
          omega
        exact turned_periodic hp (hperiod hp) hon hfires hlast hnow (fun _ => hfired) hle

end Turn

/-! ### Rounds -/

/-- The timers in the line. -/
def ids (line : List (ℕ × Place)) : List ℕ := line.map fun x => x.2.id

/-- The timers `A` in front of the ticker have not had their turn since the last tick; those behind
it, `B`, have. -/
structure Rounds (ts : ℕ → Timer) (t₀ n maxTicks : ℕ) (m : Mem) (A B : List (ℕ × Place)) :
    Prop where
  started : t₀ ≤ m.tick
  le_max : m.tick ≤ maxTicks
  ahead : ∀ x ∈ A, Ahead ts t₀ m x.2
  behind : ∀ x ∈ B, Behind ts t₀ m x.2
  nodup : (ids (A ++ B)).Nodup
  lt : ∀ x ∈ A ++ B, x.2.id < n
  settled : ∀ id < n, id ∉ ids (A ++ B) → Settled ts t₀ m id
  onTime : ∀ id < n, OnTime ts t₀ m id

namespace Rounds

variable {ts : ℕ → Timer} {t₀ n maxTicks i : ℕ} {m m' : Mem} {k k' : Place} {A B : List (ℕ × Place)}

theorem all_ahead (h : Rounds ts t₀ n maxTicks m A B) : Rounds ts t₀ n maxTicks m (A ++ B) [] where
  started := h.started
  le_max := h.le_max
  ahead x hx := (List.mem_append.mp hx).elim (h.ahead x) fun hx => (h.behind x hx).ahead
  behind _ hx := absurd hx List.not_mem_nil
  nodup := (List.append_nil (A ++ B)).symm ▸ h.nodup
  lt := (List.append_nil (A ++ B)).symm ▸ h.lt
  settled := (List.append_nil (A ++ B)).symm ▸ h.settled
  onTime := h.onTime

/-- The turn of the ticker: nobody is in front of it. -/
theorem tick (h : Rounds ts t₀ n maxTicks m [] B) (hlt : m.tick < maxTicks) :
    Rounds ts t₀ n maxTicks { m with tick := m.tick + 1 } B [] where
  started := h.started.trans (Nat.le_succ _)
  le_max := hlt
  ahead x hx := (h.behind x hx).tick
  behind _ hx := absurd hx List.not_mem_nil
  nodup := (List.append_nil B).symm ▸ h.nodup
  lt := (List.append_nil B).symm ▸ h.lt
  settled id hid hmem := by
    have hs := h.settled id hid (by rwa [List.append_nil] at hmem)
    exact ⟨hs.fired, fun hpos => (hs.lastAt_le hpos).trans (Nat.le_succ _), hs.count⟩
  onTime id hid := by
    cases h.onTime id hid with
    | before hfired hcount => exact .before hfired hcount
    | periodic hp hpos hle hfired => exact .periodic hp hpos hle hfired
    | oneShot hp hfires hfired => exact .oneShot hp hfires hfired

theorem id_ne (h : Rounds ts t₀ n maxTicks m ((i, k) :: A) B) {x : ℕ × Place} (hx : x ∈ A ++ B) :
    x.2.id ≠ k.id := by
  intro heq
  have hmem : x.2.id ∈ ids (A ++ B) := List.mem_map_of_mem hx
  rw [heq] at hmem
  exact (List.nodup_cons.mp h.nodup).1 hmem

theorem onTime_turn (h : Rounds ts t₀ n maxTicks m ((i, k) :: A) B) (hf : Frame k.id m m')
    (hon : OnTime ts t₀ m' k.id) {id : ℕ} (hid : id < n) : OnTime ts t₀ m' id := by
  by_cases heq : id = k.id
  · exact heq ▸ hon
  · exact (h.onTime id hid).frame hf heq

/-- The head of the line goes to the end. -/
theorem stay (h : Rounds ts t₀ n maxTicks m ((i, k) :: A) B) (hf : Frame k.id m m')
    (hon : OnTime ts t₀ m' k.id) (hid : k'.id = k.id) (hk' : Behind ts t₀ m' k') :
    Rounds ts t₀ n maxTicks m' A (B ++ [(i, k')]) := by
  have hperm : (ids (A ++ (B ++ [(i, k')]))).Perm (ids ((i, k) :: A ++ B)) := by
    have := (List.perm_append_singleton (i, k') (A ++ B)).map fun x : ℕ × Place => x.2.id
    rw [List.append_assoc] at this
    simpa [ids, hid] using this
  refine ⟨hf.tick ▸ h.started, hf.tick ▸ h.le_max, ?_, ?_, hperm.nodup_iff.mpr h.nodup, ?_, ?_,
    fun id hid => h.onTime_turn hf hon hid⟩
  · intro x hx
    exact (h.ahead x (List.mem_cons_of_mem _ hx)).frame hf (h.id_ne (List.mem_append_left _ hx))
  · intro x hx
    rcases List.mem_append.mp hx with hx | hx
    · exact (h.behind x hx).frame hf (h.id_ne (List.mem_append_right _ hx))
    · rw [List.mem_singleton.mp hx]
      exact hk'
  · intro x hx
    obtain ⟨y, hy, hxy⟩ := List.mem_map.mp (hperm.mem_iff.mp (List.mem_map_of_mem hx))
    exact hxy ▸ h.lt y hy
  · intro id hid hmem
    rw [hperm.mem_iff] at hmem
    exact (h.settled id hid hmem).frame hf fun heq => hmem (heq ▸ List.mem_cons_self)

/-- The head of the line is through. -/
theorem leave (h : Rounds ts t₀ n maxTicks m ((i, k) :: A) B) (hf : Frame k.id m m')
    (hon : OnTime ts t₀ m' k.id) (hs : Settled ts t₀ m' k.id) : Rounds ts t₀ n maxTicks m' A B := by
  refine ⟨hf.tick ▸ h.started, hf.tick ▸ h.le_max, ?_, ?_, (List.nodup_cons.mp h.nodup).2,
    fun x hx => h.lt x (List.mem_cons_of_mem _ hx), ?_, fun id hid => h.onTime_turn hf hon hid⟩
  · intro x hx
    exact (h.ahead x (List.mem_cons_of_mem _ hx)).frame hf (h.id_ne (List.mem_append_left _ hx))
  · intro x hx
    exact (h.behind x hx).frame hf (h.id_ne (List.mem_append_right _ hx))
  · intro id hid hmem
    by_cases heq : id = k.id
    · exact heq ▸ hs
    · refine (h.settled id hid fun hin => ?_).frame hf heq
      exact (List.mem_cons.mp hin).elim heq hmem

/-- The turn of a timer. -/
theorem timer (hperiod : ∀ id < n, (ts id).periodic = true → 0 < (ts id).period)
    (h : Rounds ts t₀ n maxTicks m ((i, k) :: A) B) (fin : ℕ → Bool) :
    ∃ B', Rounds ts t₀ n maxTicks (script ts maxTicks fin k m).1 A B' ∧
      (script ts maxTicks fin k m).1.tick = m.tick ∧
      ∀ C, Turns.settle i (C ++ B) (script ts maxTicks fin k m).2 = C ++ B' := by
  have hlt : k.id < n := h.lt (i, k) List.mem_cons_self
  obtain ⟨hframe, hon, hcall⟩ := turned (N := maxTicks) (hperiod k.id hlt) h.started
    (h.ahead (i, k) List.mem_cons_self) (h.onTime k.id hlt) fin
  rcases hcall with ⟨hret, hs⟩ | ⟨k', hyield, hid, hk'⟩
  · refine ⟨B, h.leave hframe hon hs, hframe.tick, fun C => ?_⟩
    rw [hret]
    rfl
  · refine ⟨B ++ [(i, k')], h.stay hframe hon hid hk', hframe.tick, fun C => ?_⟩
    rw [hyield]
    exact List.append_assoc C B _

/-- After the first turn of the ticker. -/
theorem first {T : List (ℕ × Place)} (hT : T.map Prod.snd = (List.range n).map .timer) :
    Rounds ts (min 1 maxTicks) n maxTicks ⟨min 1 maxTicks, 0, 0⟩ T [] := by
  have hids : ids T = List.range n := by
    have : ids T = (T.map Prod.snd).map Place.id := by
      rw [List.map_map]
      rfl
    rw [this, hT, List.map_map]
    exact List.map_id _
  refine ⟨le_rfl, Nat.min_le_right _ _, ?_, by simp, ?_, ?_, ?_, fun _ _ => .before rfl rfl⟩
  · intro x hx
    obtain ⟨id, -, hid⟩ := List.mem_map.mp (hT ▸ List.mem_map_of_mem hx)
    exact .inl ⟨id, hid.symm, rfl, rfl, rfl⟩
  · rw [List.append_nil, hids]
    exact List.nodup_range
  · intro x hx
    rw [List.append_nil] at hx
    have hmem : x.2.id ∈ ids T := List.mem_map_of_mem hx
    rw [hids] at hmem
    exact List.mem_range.mp hmem
  · intro id hid hmem
    rw [List.append_nil, hids] at hmem
    exact absurd (List.mem_range.mpr hid) hmem

end Rounds

/-- What holds between two turns: before the first one, while the ticker runs, and after that. -/
inductive InRounds (ts : ℕ → Timer) (n maxTicks : ℕ) : Mem → List (ℕ × Place) → Prop
  | first {g : ℕ} {T : List (ℕ × Place)} (hT : T.map Prod.snd = (List.range n).map .timer) :
      InRounds ts n maxTicks start ((g, .ticker) :: T)
  | ticks {m : Mem} {A B : List (ℕ × Place)} {g : ℕ}
      (h : Rounds ts (min 1 maxTicks) n maxTicks m A B) :
      InRounds ts n maxTicks m (A ++ (g, .ticker) :: B)
  | last {m : Mem} {A : List (ℕ × Place)} (h : Rounds ts (min 1 maxTicks) n maxTicks m A [])
      (htick : m.tick = maxTicks) : InRounds ts n maxTicks m A

section InRounds

variable {ts : ℕ → Timer} {n maxTicks : ℕ}

theorem InRounds.kept (hperiod : ∀ id < n, (ts id).periodic = true → 0 < (ts id).period) :
    Turns.Kept (script ts maxTicks) (InRounds ts n maxTicks) := by
  intro m i k rest fin _ h
  generalize hl : (i, k) :: rest = line at h
  cases h with
  | first hT =>
      obtain ⟨hx, rfl⟩ := List.cons.inj hl
      obtain ⟨-, rfl⟩ := Prod.mk.inj hx
      have hfirst : Rounds ts (min 1 maxTicks) n maxTicks ⟨min 1 maxTicks, 0, 0⟩ rest [] :=
        .first hT
      by_cases hlt : 0 < maxTicks
      · rw [ticker_of_lt hlt]
        have hone : (⟨0 + 1, 0, 0⟩ : Mem) = ⟨min 1 maxTicks, 0, 0⟩ := by
          rw [Nat.min_eq_left hlt]
        exact .ticks (hone ▸ hfirst)
      · rw [ticker_of_ge hlt]
        obtain rfl : maxTicks = 0 := Nat.eq_zero_of_not_pos hlt
        exact .last hfirst rfl
  | @ticks _ A B g h =>
      cases A with
      | nil =>
          obtain ⟨hx, rfl⟩ := List.cons.inj hl
          obtain ⟨-, rfl⟩ := Prod.mk.inj hx
          by_cases hlt : m.tick < maxTicks
          · rw [ticker_of_lt hlt]
            exact .ticks (h.tick hlt)
          · rw [ticker_of_ge hlt]
            exact .last h.all_ahead (le_antisymm h.le_max (not_lt.mp hlt))
      | cons x A =>
          rw [List.cons_append] at hl
          obtain ⟨rfl, rfl⟩ := List.cons.inj hl
          obtain ⟨B', h', -, hs⟩ := h.timer hperiod fin
          have hline := hs (A ++ [(g, .ticker)])
          simp only [List.append_assoc, List.singleton_append] at hline
          rw [hline]
          exact .ticks h'
  | last h htick =>
      subst hl
      obtain ⟨B', h', hsame, hs⟩ := h.timer hperiod fin
      have hline := hs rest
      rw [List.append_nil] at hline
      rw [hline]
      exact .last h'.all_ahead (hsame.trans htick)

theorem InRounds.safe {m : Mem} {line : List (ℕ × Place)} (h : InRounds ts n maxTicks m line) :
    m.tick ≤ maxTicks ∧ ∀ id < n, OnTime ts (min 1 maxTicks) m id := by
  cases h with
  | first hT => exact ⟨Nat.zero_le _, fun _ _ => .before rfl rfl⟩
  | ticks h => exact ⟨h.le_max, h.onTime⟩
  | last h htick => exact ⟨h.le_max, h.onTime⟩

/-- When its turn comes, a timer may have something to do. -/
theorem InRounds.head {m : Mem} {i : ℕ} {k : Place} {rest : List (ℕ × Place)}
    (h : InRounds ts n maxTicks m ((i, k) :: rest)) (hk : k ≠ .ticker) :
    Ahead ts (min 1 maxTicks) m k ∧ k.id < n := by
  generalize hl : (i, k) :: rest = line at h
  cases h with
  | first hT =>
      obtain ⟨hx, -⟩ := List.cons.inj hl
      exact absurd (congrArg Prod.snd hx) hk
  | @ticks _ A B g h =>
      cases A with
      | nil =>
          obtain ⟨hx, -⟩ := List.cons.inj hl
          exact absurd (congrArg Prod.snd hx) hk
      | cons x A =>
          obtain ⟨rfl, -⟩ := List.cons.inj hl
          exact ⟨h.ahead _ List.mem_cons_self, h.lt _ List.mem_cons_self⟩
  | last h htick =>
      subst hl
      exact ⟨h.ahead _ List.mem_cons_self, h.lt _ List.mem_cons_self⟩

end InRounds

end CCoroutine.Clients.Timers
