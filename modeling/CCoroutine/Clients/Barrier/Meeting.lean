import CCoroutine.Clients.Barrier.Definitions
import Mathlib.Data.List.Count

/-!
# Clients — Barrier — Meeting

As many workers as the barrier expects.  No worker begins a phase before all have begun the phase
before it, and all of them get to the end, however often they yield on the way
(`Work.meet_at_barrier`).
-/

namespace CCoroutine.Clients
open Support (Call Script Turns)

namespace Work

variable {τ : Type} {w : Work τ} {n : ℕ}

namespace Place

/-- In the loop of `barrier_wait`, and the barrier is closed. -/
def waitsAt (g : ℕ) : Place → Bool
  | waits _ _ gen => gen == g
  | begins _ _ | delays _ _ _ => false

/-- Where a worker can be in generation `g`: it has passed `g` barriers, or waits at the next one;
one that was waiting when the barrier opened does not know it yet. -/
def Ok (P g : ℕ) : Place → Prop
  | begins _ r | delays _ r _ => r + g = P
  | waits _ r gen => gen = g ∧ r + g + 1 = P ∨ gen + 1 = g ∧ r + g = P

end Place

/-- The workers that have still to begin the phase. -/
def pending (g : ℕ) (line : List (ℕ × Place)) : List ℕ :=
  (line.filter fun x => !x.2.waitsAt g).map fun x => x.2.id

/-- What holds between two turns. -/
structure Meets (w : Work τ) (n : ℕ) (d₀ : τ) (log : List (ℕ × ℕ)) (m : Mem τ)
    (line : List (ℕ × Place)) : Prop where
  data : m.data = w.replay log d₀
  total : m.gate.total = n
  arrived : m.gate.arrived = line.countP fun x => x.2.waitsAt m.gate.generation
  lt : m.gate.arrived < n
  le : m.gate.generation ≤ w.phases
  ok : ∀ x ∈ line, x.2.Ok w.phases m.gate.generation
  ids : (line.map fun x => x.2.id).Nodup
  idlt : ∀ x ∈ line, x.2.id < n
  full : m.gate.generation < w.phases → line.length = n
  phased : Phased n w.phases log
  log : ∀ id < n, ∀ ph, (id, ph) ∈ log ↔
    ph < m.gate.generation ∨ ph = m.gate.generation ∧ id ∉ pending m.gate.generation line

namespace Meets

variable {d₀ : τ} {log : List (ℕ × ℕ)} {m : Mem τ} {line line' rest : List (ℕ × Place)}
  {i e r : ℕ} {k : Place}

/-- The order of the line does not matter. -/
theorem perm (h : w.Meets n d₀ log m line) (hp : line'.Perm line) : w.Meets n d₀ log m line' where
  data := h.data
  total := h.total
  arrived := h.arrived.trans (hp.countP_eq _).symm
  lt := h.lt
  le := h.le
  ok x hx := h.ok x (hp.mem_iff.mp hx)
  ids := (hp.map _).nodup_iff.mpr h.ids
  idlt x hx := h.idlt x (hp.mem_iff.mp hx)
  full hg := hp.length_eq.trans (h.full hg)
  phased := h.phased
  log id hid ph := by
    rw [h.log id hid ph, pending, pending, ((hp.filter _).map _).mem_iff]

/-- A worker that does not wait goes from one place to another, in the same phase. -/
theorem move (h : w.Meets n d₀ log m ((i, k) :: rest)) (k' : Place) (hid : k'.id = k.id)
    (hk : k.waitsAt m.gate.generation = false) (hk' : k'.waitsAt m.gate.generation = false)
    (hok : k'.Ok w.phases m.gate.generation) : w.Meets n d₀ log m ((i, k') :: rest) where
  data := h.data
  total := h.total
  arrived := by simpa [hk, hk'] using h.arrived
  lt := h.lt
  le := h.le
  ok := by
    intro x hx
    rcases List.mem_cons.mp hx with rfl | hx
    · exact hok
    · exact h.ok x (List.mem_cons_of_mem _ hx)
  ids := by simpa [hid] using h.ids
  idlt := by
    intro x hx
    rcases List.mem_cons.mp hx with rfl | hx
    · exact hid ▸ h.idlt _ List.mem_cons_self
    · exact h.idlt x (List.mem_cons_of_mem _ hx)
  full := h.full
  phased := h.phased
  log := by simpa [pending, hk, hk', hid] using h.log

/-- The head of the line begins the phase. -/
theorem phased_note (h : w.Meets n d₀ log m ((i, .begins e r) :: rest)) :
    Phased n w.phases (log ++ [(e, m.gate.generation)]) := by
  have he : e < n := h.idlt _ List.mem_cons_self
  refine h.phased.append he h.le ?_ ?_
  · rw [h.log e he]
    simp [pending, Place.waitsAt, Place.id]
  · intro q hq j hj
    exact (h.log j hj q).mpr (.inl hq)

theorem mem_note (h : w.Meets n d₀ log m ((i, .begins e r) :: rest)) {id ph : ℕ} (hid : id < n) :
    (id, ph) ∈ log ++ [(e, m.gate.generation)] ↔ ph < m.gate.generation ∨
      ph = m.gate.generation ∧ id ∉ pending m.gate.generation rest := by
  have hnew : e ∉ pending m.gate.generation rest := by
    intro hmem
    obtain ⟨x, hx, hxe⟩ := List.mem_map.mp hmem
    exact (List.nodup_cons.mp h.ids).1
      (List.mem_map.mpr ⟨x, List.mem_of_mem_filter hx, hxe⟩)
  have hcons : pending m.gate.generation ((i, .begins e r) :: rest) =
      e :: pending m.gate.generation rest := rfl
  rw [List.mem_append, List.mem_singleton, h.log id hid, hcons, List.mem_cons, Prod.mk.injEq]
  by_cases hide : id = e
  · subst hide
    simp [hnew]
  · simp [hide]

theorem data_note (h : w.Meets n d₀ log m line) (e ph : ℕ) :
    w.note e ph m.data = w.replay (log ++ [(e, ph)]) d₀ := by
  rw [h.data, replay, replay, List.foldl_append]
  rfl

/-- A line with `n` workers has all of them. -/
theorem mem_ids (h : w.Meets n d₀ log m line) (hlen : line.length = n) {id : ℕ} (hid : id < n) :
    id ∈ line.map fun x => x.2.id := by
  have hsub : line.map (fun x => x.2.id) ⊆ List.range n := by
    intro x hx
    obtain ⟨y, hy, rfl⟩ := List.mem_map.mp hx
    exact List.mem_range.mpr (h.idlt y hy)
  have hperm := (List.subperm_of_subset h.ids hsub).perm_of_length_le (by simp [hlen])
  exact hperm.mem_iff.mpr (List.mem_range.mpr hid)

/-- After its last barrier, the worker makes its last note and leaves. -/
theorem last (h : w.Meets n d₀ log m ((i, .begins e 0) :: rest)) :
    w.Meets n d₀ (log ++ [(e, m.gate.generation)])
      { m with data := w.note e w.phases m.data } rest := by
  have hg : m.gate.generation = w.phases := by simpa [Place.Ok] using h.ok _ List.mem_cons_self
  refine ⟨?_, h.total, ?_, h.lt, h.le, ?_, ?_, ?_, ?_, h.phased_note, ?_⟩
  · rw [← hg]
    exact h.data_note e _
  · simpa [Place.waitsAt] using h.arrived
  · intro x hx
    exact h.ok x (List.mem_cons_of_mem _ hx)
  · exact (List.nodup_cons.mp h.ids).2
  · intro x hx
    exact h.idlt x (List.mem_cons_of_mem _ hx)
  · intro hlt
    exact absurd hg hlt.ne
  · intro id hid ph
    exact h.mem_note hid

/-- The barrier is closed, and the worker waits. -/
theorem closed (h : w.Meets n d₀ log m ((i, .begins e (r + 1)) :: rest))
    (hn : m.gate.arrived + 1 ≠ n) :
    w.Meets n d₀ (log ++ [(e, m.gate.generation)])
      ⟨{ m.gate with arrived := m.gate.arrived + 1 },
        w.note e (w.phases - (r + 1)) m.data⟩
      ((i, .waits e r m.gate.generation) :: rest) := by
  have hok : r + 1 + m.gate.generation = w.phases := h.ok _ List.mem_cons_self
  have harr := h.arrived
  have hlt := h.lt
  refine ⟨?_, h.total, ?_, ?_, h.le, ?_, ?_, ?_, ?_, h.phased_note, ?_⟩
  · rw [show w.phases - (r + 1) = m.gate.generation by omega]
    exact h.data_note e _
  · simpa [Place.waitsAt] using harr
  · exact lt_of_le_of_ne hlt hn
  · intro x hx
    rcases List.mem_cons.mp hx with rfl | hx
    · refine .inl ⟨rfl, ?_⟩
      show r + m.gate.generation + 1 = w.phases
      omega
    · exact h.ok x (List.mem_cons_of_mem _ hx)
  · exact h.ids
  · intro x hx
    rcases List.mem_cons.mp hx with rfl | hx
    · exact h.idlt (i, .begins e (r + 1)) List.mem_cons_self
    · exact h.idlt x (List.mem_cons_of_mem _ hx)
  · exact h.full
  · intro id hid ph
    have hwait : pending m.gate.generation ((i, .waits e r m.gate.generation) :: rest) =
        pending m.gate.generation rest := by simp [pending, Place.waitsAt]
    rw [hwait]
    exact h.mem_note hid

/-- The last worker arrives, and the barrier opens: all are in the next generation. -/
theorem opened (h : w.Meets n d₀ log m ((i, .begins e (r + 1)) :: rest))
    (hn : m.gate.arrived + 1 = n) :
    w.Meets n d₀ (log ++ [(e, m.gate.generation)])
      ⟨{ m.gate with arrived := 0, generation := m.gate.generation + 1 },
        w.note e (w.phases - (r + 1)) m.data⟩
      ((i, .begins e r) :: rest) := by
  have hok : r + 1 + m.gate.generation = w.phases := h.ok _ List.mem_cons_self
  have hlen : rest.length + 1 = n := h.full (by omega)
  -- all the others are waiting
  have hall : ∀ x ∈ rest, x.2.waitsAt m.gate.generation = true := by
    refine List.countP_eq_length.mp ?_
    have harr := h.arrived
    rw [List.countP_cons_of_neg (by simp [Place.waitsAt])] at harr
    omega
  have hplace : ∀ x ∈ rest, ∃ id r', x.2 = .waits id r' m.gate.generation ∧
      r' + (m.gate.generation + 1) = w.phases := by
    intro x hx
    have hw := hall x hx
    have hx' := h.ok x (List.mem_cons_of_mem _ hx)
    cases hk : x.2 with
    | begins id r' => simp [hk, Place.waitsAt] at hw
    | delays id r' d => simp [hk, Place.waitsAt] at hw
    | waits id r' gen =>
        rw [hk] at hw hx'
        obtain rfl : gen = m.gate.generation := by simpa [Place.waitsAt] using hw
        refine ⟨id, r', rfl, ?_⟩
        rcases hx' with ⟨-, h'⟩ | ⟨h', -⟩
        · omega
        · omega
  have hnone : ∀ x ∈ rest, x.2.waitsAt (m.gate.generation + 1) = false := by
    intro x hx
    obtain ⟨id, r', hk, -⟩ := hplace x hx
    simp [hk, Place.waitsAt]
  refine ⟨?_, h.total, ?_, ?_, ?_, ?_, h.ids, ?_, fun _ => hlen, h.phased_note, ?_⟩
  · rw [show w.phases - (r + 1) = m.gate.generation by omega]
    exact h.data_note e _
  · symm
    refine List.countP_eq_zero.mpr ?_
    intro x hx
    rcases List.mem_cons.mp hx with rfl | hx
    · simp [Place.waitsAt]
    · simp [hnone x hx]
  · show 0 < n
    omega
  · show m.gate.generation + 1 ≤ w.phases
    omega
  · intro x hx
    rcases List.mem_cons.mp hx with rfl | hx
    · show r + (m.gate.generation + 1) = w.phases
      omega
    · obtain ⟨id, r', hk, hr'⟩ := hplace x hx
      rw [hk]
      exact .inr ⟨rfl, hr'⟩
  · intro x hx
    rcases List.mem_cons.mp hx with rfl | hx
    · exact h.idlt (i, .begins e (r + 1)) List.mem_cons_self
    · exact h.idlt x (List.mem_cons_of_mem _ hx)
  · intro id hid ph
    -- nobody is left of the phase that ends, and everybody is pending in the one that begins
    have hold : pending m.gate.generation rest = [] := by
      rw [pending, List.filter_eq_nil_iff.mpr, List.map_nil]
      intro x hx
      simp [hall x hx]
    have hmem : id ∈ pending (m.gate.generation + 1) ((i, .begins e r) :: rest) := by
      rw [pending, List.filter_eq_self.mpr]
      · exact h.mem_ids hlen hid
      · intro x hx
        rcases List.mem_cons.mp hx with rfl | hx
        · rfl
        · simp [hnone x hx]
    rw [h.mem_note hid, hold]
    simp only [List.not_mem_nil, not_false_eq_true, and_true, hmem, not_true, and_false, or_false]
    omega

/-- A phase begins, when the rest of it keeps the invariant. -/
theorem proceed (h : w.Meets n d₀ log m ((i, .begins e r) :: rest))
    {go : Mem τ → Mem τ × Call Place}
    (hgo : w.Meets n d₀ log m ((i, .begins e r) :: rest) →
      ∃ log', w.Meets n d₀ log' (go m).1 (Turns.settle i rest (go m).2)) :
    ∃ log', w.Meets n d₀ log' (w.proceed e r go m).1
      (Turns.settle i rest (w.proceed e r go m).2) := by
  unfold Work.proceed
  split
  · exact hgo h
  · exact ⟨log, (h.move (.delays e r _) rfl rfl rfl (h.ok _ List.mem_cons_self)).perm
      (List.perm_append_singleton _ _)⟩

/-- **The rest of a phase keeps the invariant.** -/
theorem arrive (hw : w.wait = barrierWait ∨ w.wait = cobWait) (hP : w.phases < 2 ^ 31)
    (h : w.Meets n d₀ log m ((i, .begins e r) :: rest)) :
    ∃ log', w.Meets n d₀ log' (w.arrive e r m).1 (Turns.settle i rest (w.arrive e r m).2) := by
  induction r generalizing m log with
  | zero => exact ⟨_, h.last⟩
  | succ r ih =>
      have hok : r + 1 + m.gate.generation = w.phases := h.ok _ List.mem_cons_self
      have hwait := wait_eq hw (b := m.gate) (by rw [h.total]; exact h.lt) (by omega)
      by_cases hn : m.gate.arrived + 1 = n
      · rw [if_pos (hn.trans h.total.symm)] at hwait
        rw [Work.arrive, hwait]
        exact h.opened hn |>.proceed fun h' => ih h'
      · rw [if_neg fun e => hn (e.trans h.total)] at hwait
        rw [Work.arrive, hwait]
        exact ⟨_, (h.closed hn).perm (List.perm_append_singleton _ _)⟩

/-- **A turn keeps the invariant.** -/
theorem kept (hw : w.wait = barrierWait ∨ w.wait = cobWait) (hP : w.phases < 2 ^ 31) :
    Turns.Kept w.script fun m line => ∃ log, w.Meets n d₀ log m line := by
  rintro m i k rest fin - ⟨log, h⟩
  have hok := h.ok _ List.mem_cons_self
  cases k with
  | begins e r => exact h.proceed fun h => h.arrive hw hP
  | delays e r d =>
      cases d with
      | zero => exact (h.move (.begins e r) rfl rfl rfl hok).arrive hw hP
      | succ d =>
          exact ⟨log, (h.move (.delays e r d) rfl rfl rfl hok).perm
            (List.perm_append_singleton _ _)⟩
  | waits e r gen =>
      by_cases hg : m.gate.generation = gen
      · simp only [script, if_pos hg]
        exact ⟨log, h.perm (List.perm_append_singleton _ _)⟩
      · have hr : r + m.gate.generation = w.phases := by
          rcases hok with ⟨e, -⟩ | ⟨-, hr⟩
          · exact absurd e.symm hg
          · exact hr
        have hwait : Place.waitsAt m.gate.generation (.waits e r gen) = false := by
          simpa [Place.waitsAt] using Ne.symm hg
        simp only [script, if_neg hg]
        exact (h.move (.begins e r) rfl hwait rfl hr).proceed fun h => h.arrive hw hP

/-- Where every worker in the line finds the barrier closed, the line is empty. -/
theorem line_nil (h : w.Meets n d₀ log m line)
    (hall : ∀ x ∈ line, ∃ id r, x.2 = .waits id r m.gate.generation) : line = [] := by
  have hcount : m.gate.arrived = line.length := by
    rw [h.arrived]
    refine List.countP_eq_length.mpr ?_
    intro x hx
    obtain ⟨id, r, hk⟩ := hall x hx
    simp [hk, Place.waitsAt]
  cases line with
  | nil => rfl
  | cons x rest =>
      obtain ⟨id, r, hk⟩ := hall x List.mem_cons_self
      have hok := h.ok x List.mem_cons_self
      rw [hk] at hok
      have hlt : m.gate.generation < w.phases := by
        rcases hok with ⟨-, hr⟩ | ⟨hr, -⟩
        · omega
        · omega
      exact absurd (hcount.trans (h.full hlt)) h.lt.ne

/-- The workers before their first turn. -/
theorem start (hn : 0 < n) (L : Launch (w.bodies n)) (d₀ : τ) :
    w.Meets n d₀ [] ⟨barrierInit n, d₀⟩ (L.turns (⟨barrierInit n, d₀⟩ : Mem τ)).line := by
  have hline := L.turns_line_snd (⟨barrierInit n, d₀⟩ : Mem τ)
  generalize (L.turns (⟨barrierInit n, d₀⟩ : Mem τ)).line = line at hline
  have hplace : ∀ x ∈ line, ∃ id < n, x.2 = .begins id w.phases := by
    intro x hx
    have hmem : x.2 ∈ w.bodies n := hline ▸ List.mem_map_of_mem hx
    simpa [bodies, eq_comm] using hmem
  have hids : line.map (fun x => x.2.id) = List.range n := by
    have : line.map (fun x => x.2.id) = (line.map Prod.snd).map Place.id := by
      rw [List.map_map]
      rfl
    rw [this, hline, bodies, List.map_map]
    exact List.map_id _
  refine ⟨rfl, rfl, ?_, hn, Nat.zero_le _, ?_, ?_, ?_, ?_, ?_, ?_⟩
  · symm
    refine List.countP_eq_zero.mpr ?_
    intro x hx
    obtain ⟨id, -, hk⟩ := hplace x hx
    simp [hk, Place.waitsAt]
  · intro x hx
    obtain ⟨id, -, hk⟩ := hplace x hx
    rw [hk]
    rfl
  · rw [hids]
    exact List.nodup_range
  · intro x hx
    obtain ⟨id, hid, hk⟩ := hplace x hx
    rw [hk]
    exact hid
  · intro _
    have := congrArg List.length hids
    simpa using this
  · exact ⟨List.nodup_nil, by simp, by simp⟩
  · intro id hid ph
    have hmem : id ∈ pending 0 line := by
      rw [pending, List.filter_eq_self.mpr, hids]
      · exact List.mem_range.mpr hid
      · intro x hx
        obtain ⟨id, -, hk⟩ := hplace x hx
        rw [hk]
        rfl
    simp [barrierInit, hmem]

end Meets

/-- A worker that finds the barrier closed yields. -/
theorem script_of_waits (fin : ℕ → Bool) (m : Mem τ) (k : Place)
    (h : ∃ id r, k = .waits id r m.gate.generation) : w.script fin k m = (m, .yield k) := by
  obtain ⟨id, r, rfl⟩ := h
  exact if_pos rfl

section All

variable (hw : w.wait = barrierWait ∨ w.wait = cobWait) (hP : w.phases < 2 ^ 31) (hn : 0 < n)
  (L : Launch (w.bodies n)) (d₀ : τ)

include hw hP hn

theorem always_phased : L.Always w.script ⟨barrierInit n, d₀⟩
    fun m => ∃ log, m.data = w.replay log d₀ ∧ Phased n w.phases log := by
  refine L.always_of_kept (w.uses _) w.yieldsOnly (Meets.kept hw hP) ⟨[], Meets.start hn L d₀⟩ ?_
  rintro m line ⟨log, h⟩
  exact ⟨log, h.data, h.phased⟩

theorem completes_phased : L.Completes w.script ⟨barrierInit n, d₀⟩ fun m =>
    m.gate = ⟨n, 0, w.phases⟩ ∧ ∃ log, m.data = w.replay log d₀ ∧ Phased n w.phases log ∧
      ∀ id < n, ∀ ph ≤ w.phases, (id, ph) ∈ log := by
  obtain ⟨d, -, ⟨log, h⟩, hstuck, hdone, -⟩ := L.exists_settled (w.uses _) w.yieldsOnly
    (Meets.kept hw hP) ⟨[], Meets.start hn L d₀⟩ w.weight (fun _ => 0) script_of_waits
    fun fin m _ k _ _ => script_lt fin m k
  have hl := h.line_nil hstuck
  rw [hl] at h
  have hg : d.mem.gate.generation = w.phases := by
    refine le_antisymm h.le (not_lt.mp fun hlt => hn.ne ?_)
    exact h.full hlt
  refine (hdone hl).imp ?_
  rintro m rfl
  refine ⟨?_, log, h.data, h.phased, ?_⟩
  · have harr : d.mem.gate.arrived = 0 := h.arrived
    rw [← h.total, ← harr, ← hg]
  · intro id hid ph hph
    refine (h.log id hid ph).mpr ?_
    rw [hg]
    exact (lt_or_eq_of_le hph).imp_right fun e => ⟨e, List.not_mem_nil⟩

end All

/-- **Meeting at the barrier**, in no more phases than an `int` can count.  At every step the data
are what the notes of a log make of them, in which a phase is begun only after all workers have
begun the phase before it.  `co_run` returns with all workers done, and then every worker has made
every note once. -/
theorem meet_at_barrier (w : Work τ) (hw : w.wait = barrierWait ∨ w.wait = cobWait)
    (hP : w.phases < 2 ^ 31) (hn : 0 < n) (L : Launch (w.bodies n)) (d₀ : τ) :
    L.Always w.script ⟨barrierInit n, d₀⟩
      (fun m => ∃ log, m.data = w.replay log d₀ ∧ Phased n w.phases log) ∧
    L.Completes w.script ⟨barrierInit n, d₀⟩ fun m =>
      m.gate = ⟨n, 0, w.phases⟩ ∧ ∃ log, m.data = w.replay log d₀ ∧ Phased n w.phases log ∧
        ∀ id < n, ∀ ph ≤ w.phases, (id, ph) ∈ log :=
  ⟨always_phased hw hP hn L d₀, completes_phased hw hP hn L d₀⟩

/-- Four workers, and two phases. -/
theorem meet_at_barrier_four :
    (Launch.first (t2Worker.bodies 4) (by decide)).Completes t2Worker.script
      ⟨barrierInit 4, fun _ => 0⟩ fun m => m.gate = ⟨4, 0, 2⟩ :=
  (meet_at_barrier t2Worker (.inl rfl) (by decide) (by decide) _ _).2.imp fun _ h => h.1

end Work

end CCoroutine.Clients
