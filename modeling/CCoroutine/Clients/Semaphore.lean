import CCoroutine.Clients.Launches
import CCoroutine.Support.Ints
import Mathlib.Data.List.Count

/-!
# Clients — Semaphore

The counting semaphore of `tests/test_semaphore.c`, which waits by yielding, and three of the
programs that use it there.  The file's own `main` starts the coroutines by a function that
`coroutine.h` does not have; here main creates them with `co_create`.

* `slots_bounded`: workers that hold the semaphore over a yield.  There are never more of them
  inside than the semaphore admits, and all get through; without a slot, `co_run` does not return.
* `mutex_counts`: a counter that is read before a yield and written after it, under a semaphore of
  one.  No increment is lost, if there are no more of them than an `int` can count.
* `released_in_order`: waiters released one by one go on in the order in which they were created.
-/

namespace CCoroutine.Clients.Semaphore
open Support (Call Script Turns wrap)

/-- One round of the loop of `sem_wait_coro`: the count after the wait, if it does not yield. -/
def semWait (count : ℤ) : Option ℤ := if count ≤ 0 then none else some (count - 1)

/-- `sem_post_coro`. -/
def semPost (count : ℤ) : ℤ := count + 1

theorem semWait_of_le {count : ℤ} (h : count ≤ 0) : semWait count = none := if_pos h

theorem semWait_of_lt {count : ℤ} (h : 0 < count) : semWait count = some (count - 1) :=
  if_neg h.not_ge

/-! ### Concurrent slots -/

namespace Slots

/-- `t2_sem`, `t2_slots_used` and `t2_max_concurrent`. -/
structure Mem where
  sem : ℤ
  used : ℤ
  peak : ℤ

/-- In `t2_worker`: in `sem_wait_coro`, and behind `co_yield`. -/
inductive Place where
  | waits
  | works
  deriving DecidableEq

def t2Worker : Script Mem Place := fun _ k m =>
  match k with
  | .waits =>
      match semWait m.sem with
      | none => (m, .yield .waits)
      | some sem =>
          (⟨sem, m.used + 1, if m.used + 1 > m.peak then m.used + 1 else m.peak⟩, .yield .works)
  | .works => ({ m with sem := semPost m.sem, used := m.used - 1 }, .ret)

theorem t2Worker_of_le {m : Mem} (h : m.sem ≤ 0) (fin : ℕ → Bool) :
    t2Worker fin .waits m = (m, .yield .waits) := by
  simp [t2Worker, semWait_of_le h]

theorem t2Worker_of_lt {m : Mem} (h : 0 < m.sem) (fin : ℕ → Bool) :
    t2Worker fin .waits m = (⟨m.sem - 1, m.used + 1,
      if m.used + 1 > m.peak then m.used + 1 else m.peak⟩, .yield .works) := by
  simp [t2Worker, semWait_of_lt h]

theorem yieldsOnly : t2Worker.YieldsOnly := by
  intro fin k m j k'
  cases k with
  | waits =>
      simp only [t2Worker]
      split <;> simp
  | works => simp [t2Worker]

theorem uses (H : ℕ → Prop) : t2Worker.Uses H :=
  yieldsOnly.uses (fun _ _ => rfl) H

/-- The slots that are not free are those of the workers inside. -/
structure Inside (C : ℤ) (m : Mem) (line : List (ℕ × Place)) : Prop where
  total : m.sem + m.used = C
  used : m.used = (line.countP fun x => x.2 = .works : ℕ)
  free : 0 ≤ m.sem
  peak : m.peak ≤ C

namespace Inside

variable {C : ℤ} {m : Mem} {line line' : List (ℕ × Place)}

theorem perm (h : Inside C m line) (hp : line'.Perm line) : Inside C m line' :=
  ⟨h.total, by rw [hp.countP_eq]; exact h.used, h.free, h.peak⟩

theorem kept (C : ℤ) : Turns.Kept t2Worker (Inside C) := by
  rintro m i k rest fin - h
  have htotal := h.total
  cases k with
  | works =>
      have hused : m.used = (rest.countP fun x => x.2 = .works : ℕ) + 1 := by
        simpa using h.used
      refine ⟨?_, ?_, ?_, h.peak⟩
      · show m.sem + 1 + (m.used - 1) = C
        omega
      · show m.used - 1 = (rest.countP fun x => x.2 = .works : ℕ)
        rw [hused, add_sub_cancel_right]
      · exact Int.add_nonneg h.free zero_le_one
  | waits =>
      have hused : m.used = (rest.countP fun x => x.2 = .works : ℕ) := by simpa using h.used
      rcases le_or_gt m.sem 0 with hs | hs
      · rw [t2Worker_of_le hs]
        exact h.perm (List.perm_append_singleton _ _)
      · rw [t2Worker_of_lt hs]
        refine ⟨?_, ?_, ?_, ?_⟩
        · show m.sem - 1 + (m.used + 1) = C
          omega
        · simp [Turns.settle, hused]
        · exact Int.sub_nonneg_of_le hs
        · show (if m.used + 1 > m.peak then m.used + 1 else m.peak) ≤ C
          split
          · omega
          · exact h.peak

/-- Nobody is inside at the start. -/
theorem of_waits {C : ℕ} (hwaits : ∀ x ∈ line, x.2 = .waits) : Inside C ⟨C, 0, 0⟩ line := by
  refine ⟨add_zero _, ?_, Int.natCast_nonneg C, Int.natCast_nonneg C⟩
  rw [List.countP_eq_zero.mpr]
  · rfl
  · intro x hx
    simp [hwaits x hx]

end Inside

/-- Worker `j` is between `sem_wait_coro` and `sem_post_coro`. -/
def AtWork (p : Process Mem Place) (j : ℕ) : Prop :=
  p.s.abs.Unfinished j ∧ p.loc j = some .works

/-- `t2_slots_used` is the number of those. -/
theorem Inside.atWork {C : ℤ} {p : Process Mem Place} {c : Turns Mem Place} (hs : p.Shows c)
    (hb : c.blocked = []) (h : Inside C c.mem c.line) :
    ∃ inside : List ℕ, inside.Nodup ∧ (∀ j, j ∈ inside ↔ AtWork p j) ∧
      inside.length = p.mem.used := by
  refine ⟨(c.line.filter fun x => x.2 = .works).map Prod.fst, ?_, ?_, ?_⟩
  · have hnd : (c.line.map Prod.fst).Nodup := hs.line ▸ hs.inv.ideal.nodup_line
    exact hnd.sublist (List.filter_sublist.map Prod.fst)
  · intro j
    rw [AtWork, ← hs.mem_line_iff hb]
    simp
  · rw [List.length_map, ← List.countP_eq_length_filter, hs.mem, h.used]

def weight : Place → ℕ
  | .waits => 2
  | .works => 1

def Stuck (m : Mem) (k : Place) : Prop := k = .waits ∧ m.sem ≤ 0

theorem t2Worker_of_stuck (fin : ℕ → Bool) (m : Mem) (k : Place) (h : Stuck m k) :
    t2Worker fin k m = (m, .yield k) := by
  obtain ⟨rfl, hs⟩ := h
  exact t2Worker_of_le hs fin

theorem t2Worker_lt (fin : ℕ → Bool) (m : Mem) (k : Place) (h : ¬ Stuck m k) :
    Turns.callWeight weight (t2Worker fin k m).2 + 0 < weight k + 0 := by
  cases k with
  | works => exact Nat.zero_lt_one
  | waits =>
      have hs : 0 < m.sem := not_le.mp fun hs => h ⟨rfl, hs⟩
      rw [t2Worker_of_lt hs]
      exact Nat.one_lt_two

end Slots

open Slots in
/-- **Concurrent slots.**  `t2_slots_used` counts the workers that are inside, and there are never
more of them than the semaphore admits.  If it admits any, all get through; otherwise none does. -/
theorem slots_bounded (C n : ℕ) (L : Launch (List.replicate n Place.waits)) :
    L.Always Slots.t2Worker ⟨C, 0, 0⟩ (fun m =>
      0 ≤ m.used ∧ m.used ≤ C ∧ m.peak ≤ C ∧ m.sem + m.used = C) ∧
    (∀ N, ∃ p, L.after Slots.t2Worker ⟨C, 0, 0⟩ N = .ok p ∧ ∃ inside : List ℕ, inside.Nodup ∧
      (∀ j, j ∈ inside ↔ AtWork p j) ∧ inside.length = p.mem.used ∧ inside.length ≤ C) ∧
    (0 < C → L.Completes Slots.t2Worker ⟨C, 0, 0⟩ fun m => m.sem = C ∧ m.used = 0 ∧ m.peak ≤ C) ∧
    (C = 0 → 0 < n → L.Diverges Slots.t2Worker ⟨C, 0, 0⟩) := by
  have hline : (L.turns (⟨C, 0, 0⟩ : Mem)).line.map Prod.snd = List.replicate n Place.waits :=
    L.turns_line_snd _
  have hwaits : ∀ x ∈ (L.turns (⟨C, 0, 0⟩ : Mem)).line, x.2 = .waits := by
    intro x hx
    exact List.eq_of_mem_replicate (hline ▸ List.mem_map_of_mem hx)
  have hstart : Inside C ⟨C, 0, 0⟩ (L.turns (⟨C, 0, 0⟩ : Mem)).line := .of_waits hwaits
  refine ⟨L.always_of_kept (uses _) yieldsOnly (Inside.kept C) hstart ?_, fun N => ?_,
    fun hC => ?_, fun hC hn => ?_⟩
  · intro m line h
    have hle := h.total
    have hfree := h.free
    exact ⟨h.used ▸ Int.natCast_nonneg _, by omega, h.peak, h.total⟩
  · obtain ⟨p, c, hp, hs, hb, h⟩ := L.exists_shows_of_kept (uses _) yieldsOnly (Inside.kept C)
      (fun i => .of_waits fun x hx => hwaits x (List.mem_of_mem_take hx)) N
    obtain ⟨inside, hnd, hmem, hlen⟩ := h.atWork hs hb
    refine ⟨p, hp, inside, hnd, hmem, hlen, ?_⟩
    have htotal := h.total
    have hfree := h.free
    rw [← hs.mem] at htotal hfree
    omega
  · obtain ⟨d, -, h, hstuck, hdone, -⟩ := L.exists_settled (uses _) yieldsOnly (Inside.kept C)
      hstart weight (fun _ => 0) t2Worker_of_stuck fun fin m _ k _ _ => t2Worker_lt fin m k
    have hused : d.mem.used = 0 := by
      rw [h.used, List.countP_eq_zero.mpr]
      · rfl
      · intro x hx
        simp [(hstuck x hx).1]
    have hsem : d.mem.sem = C := by
      have := h.total
      omega
    have hl : d.line = [] := by
      refine List.eq_nil_iff_forall_not_mem.mpr fun x hx => ?_
      have := (hstuck x hx).2
      omega
    refine (hdone hl).imp ?_
    rintro m rfl
    exact ⟨hsem, hused, h.peak⟩
  · subst hC
    have hord := Turns.singly_of_yieldsOnly (c := L.turns ⟨0, 0, 0⟩) yieldsOnly rfl
    -- all spin from the beginning
    refine L.diverges (uses _) (.inr hord) (Turns.line_ne_nil (N := 0) ?_ ?_)
    · intro hnil
      rw [Function.iterate_zero_apply] at hnil
      rw [hnil, List.map_nil] at hline
      exact hn.ne (by simpa using congrArg List.length hline)
    · intro x hx
      exact t2Worker_of_stuck _ _ _ ⟨hwaits x hx, le_rfl⟩

/-- `test_semaphore_count`: five workers and two slots. -/
theorem slots_bounded_five :
    (Launch.first (List.replicate 5 Slots.Place.waits) (by decide)).Completes Slots.t2Worker
      ⟨2, 0, 0⟩ fun m => m.sem = 2 ∧ m.used = 0 ∧ m.peak ≤ 2 :=
  (slots_bounded 2 5 _).2.2.1 (by decide)

/-! ### A mutex -/

namespace Mutex

/-- `t3_mutex` and `t3_counter`. -/
structure Mem where
  mutex : ℤ
  counter : ℤ

/-- In `t3_inc`, with `r` rounds after this one. -/
inductive Place where
  /-- At the test of the loop, with `r` rounds to come. -/
  | top (r : ℕ)
  /-- In `sem_wait_coro`. -/
  | acquires (r : ℕ)
  /-- Behind the `co_yield` that is made with the lock held. -/
  | holds (r : ℕ) (tmp : ℤ)

def acquire (r : ℕ) (m : Mem) : Mem × Call Place :=
  match semWait m.mutex with
  | none => (m, .yield (.acquires r))
  | some mutex => ({ m with mutex := mutex }, .yield (.holds r m.counter))

def t3Inc : Script Mem Place := fun _ k m =>
  match k with
  | .top 0 => (m, .ret)
  | .top (r + 1) => acquire r m
  | .acquires r => acquire r m
  | .holds r tmp => (⟨semPost m.mutex, wrap 32 (tmp + 1)⟩, .yield (.top r))

theorem acquire_of_le {m : Mem} {r : ℕ} (h : m.mutex ≤ 0) :
    acquire r m = (m, .yield (.acquires r)) := by
  simp [acquire, semWait_of_le h]

theorem acquire_of_lt {m : Mem} {r : ℕ} (h : 0 < m.mutex) :
    acquire r m = ({ m with mutex := m.mutex - 1 }, .yield (.holds r m.counter)) := by
  simp [acquire, semWait_of_lt h]

theorem yieldsOnly : t3Inc.YieldsOnly := by
  have hacquire : ∀ (r : ℕ) (m : Mem) j k, (acquire r m).2 ≠ .await j k := by
    intro r m j k
    unfold acquire
    split <;> simp
  intro fin k m j k'
  cases k with
  | top r =>
      cases r with
      | zero => simp [t3Inc]
      | succ r => exact hacquire r m j k'
  | acquires r => exact hacquire r m j k'
  | holds r tmp => simp [t3Inc]

theorem uses (H : ℕ → Prop) : t3Inc.Uses H :=
  yieldsOnly.uses (fun _ _ => rfl) H

def Place.holder : Place → Bool
  | holds _ _ => true
  | top _ | acquires _ => false

/-- The increments to come. -/
def Place.left : Place → ℕ
  | top r => r
  | acquires r | holds r _ => r + 1

/-- One coroutine at most holds the lock, and has read the counter as it is. -/
structure Excludes (total : ℕ) (m : Mem) (line : List (ℕ × Place)) : Prop where
  free : 0 ≤ m.mutex
  holder : m.mutex + (line.countP fun x => x.2.holder : ℕ) = 1
  fresh : ∀ x ∈ line, ∀ r tmp, x.2 = .holds r tmp → tmp = m.counter
  nonneg : 0 ≤ m.counter
  sum : m.counter + (line.map fun x => x.2.left).sum = total

namespace Excludes

variable {total : ℕ} {m : Mem} {line line' rest : List (ℕ × Place)} {i r : ℕ} {tmp : ℤ}
  {k : Place}

theorem perm (h : Excludes total m line) (hp : line'.Perm line) : Excludes total m line' where
  free := h.free
  holder := by rw [hp.countP_eq]; exact h.holder
  fresh x hx := h.fresh x (hp.mem_iff.mp hx)
  nonneg := h.nonneg
  sum := by rw [(hp.map _).sum_eq]; exact h.sum

/-- The head of the line goes from one place to another without the lock. -/
theorem move (h : Excludes total m ((i, k) :: rest)) (k' : Place) (hk : k.holder = false)
    (hk' : k'.holder = false) (hleft : k'.left = k.left) :
    Excludes total m ((i, k') :: rest) where
  free := h.free
  holder := by simpa [hk, hk'] using h.holder
  fresh := by
    intro x hx r tmp hxk
    rcases List.mem_cons.mp hx with rfl | hx
    · rw [show k' = .holds r tmp from hxk] at hk'
      cases hk'
    · exact h.fresh x (List.mem_cons_of_mem _ hx) r tmp hxk
  nonneg := h.nonneg
  sum := by simpa [hleft] using h.sum

/-- While somebody is at the lock, the others are not. -/
theorem none_of_pos (h : Excludes total m ((i, k) :: rest)) (hk : k.holder = true ∨ 0 < m.mutex) :
    m.mutex + (if k.holder then 1 else 0) = 1 ∧ rest.countP (fun x => x.2.holder) = 0 := by
  have hholder := h.holder
  have hfree := h.free
  rw [List.countP_cons] at hholder
  rcases hk with hk | hk
  · rw [if_pos hk] at hholder ⊢
    omega
  · cases hh : k.holder with
    | true =>
        rw [if_pos hh] at hholder
        omega
    | false =>
        rw [if_neg (by simp [hh])] at hholder
        rw [if_neg (by simp)]
        omega

/-- The head of the line tries to get the lock. -/
theorem acquire (h : Excludes total m ((i, .acquires r) :: rest)) :
    Excludes total (acquire r m).1 (Turns.settle i rest (Mutex.acquire r m).2) := by
  rcases le_or_gt m.mutex 0 with hs | hs
  · rw [acquire_of_le hs]
    exact h.perm (List.perm_append_singleton _ _)
  · obtain ⟨hone, hnone⟩ := h.none_of_pos (.inr hs)
    have hmutex : m.mutex = 1 := by simpa [Place.holder] using hone
    have hnext : Excludes total { m with mutex := m.mutex - 1 }
        ((i, .holds r m.counter) :: rest) := by
      refine ⟨Int.sub_nonneg_of_le hs, ?_, ?_, h.nonneg, ?_⟩
      · rw [List.countP_cons_of_pos (by rfl), hnone, hmutex]
        rfl
      · intro x hx r' tmp' hxk
        rcases List.mem_cons.mp hx with rfl | hx
        · exact (Place.holds.inj hxk).2.symm
        · exact h.fresh x (List.mem_cons_of_mem _ hx) r' tmp' hxk
      · simpa [Place.left] using h.sum
    rw [acquire_of_lt hs]
    exact hnext.perm (List.perm_append_singleton _ _)

/-- The holder writes the counter and gives the lock back. -/
theorem release (hfits : total ≤ 2147483647) (h : Excludes total m ((i, .holds r tmp) :: rest)) :
    Excludes total ⟨m.mutex + 1, wrap 32 (tmp + 1)⟩ ((i, .top r) :: rest) := by
  obtain rfl := h.fresh _ List.mem_cons_self r tmp rfl
  obtain ⟨hone, hnone⟩ := h.none_of_pos (.inl rfl)
  have hnonneg := h.nonneg
  have hsum := h.sum
  simp only [List.map_cons, List.sum_cons, Place.left] at hsum
  -- the increment is one of those that are counted
  rw [Support.wrap_of_lt (by omega) (by omega)]
  refine ⟨Int.add_nonneg h.free zero_le_one, ?_, ?_, Int.add_nonneg hnonneg zero_le_one, ?_⟩
  · rw [List.countP_cons_of_neg (by simp [Place.holder]), hnone]
    exact (add_zero _).trans hone
  · intro x hx r' tmp' hxk
    rcases List.mem_cons.mp hx with rfl | hx
    · cases hxk
    · -- there is no other holder
      refine absurd ?_ (List.countP_eq_zero.mp hnone x hx)
      simp [hxk, Place.holder]
  · simp only [List.map_cons, List.sum_cons, Place.left]
    omega

theorem leave (h : Excludes total m ((i, .top 0) :: rest)) : Excludes total m rest where
  free := h.free
  holder := by simpa [Place.holder] using h.holder
  fresh x hx := h.fresh x (List.mem_cons_of_mem _ hx)
  nonneg := h.nonneg
  sum := by simpa [Place.left] using h.sum

theorem kept (hfits : total ≤ 2147483647) : Turns.Kept t3Inc (Excludes total) := by
  rintro m i k rest fin - h
  cases k with
  | top r =>
      cases r with
      | zero => exact h.leave
      | succ r => exact (h.move (.acquires r) rfl rfl rfl).acquire
  | acquires r => exact h.acquire
  | holds r tmp => exact (h.release hfits).perm (List.perm_append_singleton _ _)

/-- Nobody has begun. -/
theorem of_top {iters : List ℕ} (hline : line.map Prod.snd = iters.map Place.top) :
    Excludes iters.sum ⟨1, 0⟩ line := by
  have htop : ∀ x ∈ line, ∃ r, x.2 = .top r := by
    intro x hx
    obtain ⟨r, -, hr⟩ := List.mem_map.mp (hline ▸ List.mem_map_of_mem hx)
    exact ⟨r, hr.symm⟩
  refine ⟨zero_le_one, ?_, ?_, le_rfl, ?_⟩
  · rw [List.countP_eq_zero.mpr]
    · rfl
    · intro x hx
      obtain ⟨r, hr⟩ := htop x hx
      simp [hr, Place.holder]
  · intro x hx r tmp hxk
    obtain ⟨r', hr⟩ := htop x hx
    cases hr.symm.trans hxk
  · have hleft : line.map (fun x => x.2.left) = iters := by
      calc line.map (fun x => x.2.left) = (line.map Prod.snd).map Place.left := by
            rw [List.map_map]
            rfl
        _ = iters := by
            rw [hline, List.map_map]
            exact List.map_id iters
    rw [hleft]
    exact zero_add _

end Excludes

def weight : Place → ℕ
  | .top r => 3 * r + 1
  | .acquires r => 3 * r + 3
  | .holds r _ => 3 * r + 2

def Stuck (m : Mem) (k : Place) : Prop := (∃ r, k = .acquires r) ∧ m.mutex ≤ 0

theorem t3Inc_of_stuck (fin : ℕ → Bool) (m : Mem) (k : Place) (h : Stuck m k) :
    t3Inc fin k m = (m, .yield k) := by
  obtain ⟨⟨r, rfl⟩, hs⟩ := h
  exact acquire_of_le hs

theorem acquire_le (r : ℕ) (m : Mem) :
    Turns.callWeight weight (acquire r m).2 ≤ 3 * r + 3 := by
  rcases le_or_gt m.mutex 0 with hs | hs
  · rw [acquire_of_le hs]
    exact le_rfl
  · rw [acquire_of_lt hs]
    exact Nat.le_succ _

theorem t3Inc_lt (fin : ℕ → Bool) (m : Mem) (k : Place) (h : ¬ Stuck m k) :
    Turns.callWeight weight (t3Inc fin k m).2 + 0 < weight k + 0 := by
  cases k with
  | top r =>
      cases r with
      | zero => exact Nat.zero_lt_one
      | succ r => exact (acquire_le r m).trans_lt (Nat.lt_succ_self _)
  | acquires r =>
      have hs : 0 < m.mutex := not_le.mp fun hs => h ⟨⟨r, rfl⟩, hs⟩
      show Turns.callWeight weight (acquire r m).2 < _
      rw [acquire_of_lt hs]
      exact Nat.lt_succ_self _
  | holds r tmp => exact Nat.lt_succ_self _

end Mutex

open Mutex in
/-- **No lost update.**  Coroutines that increment the counter as often as `iters` says, with a
yield between reading and writing it, leave the sum of all, if it fits an `int`. -/
theorem mutex_counts {iters : List ℕ} (hfits : iters.sum ≤ 2147483647)
    (L : Launch (iters.map Place.top)) :
    L.Always t3Inc ⟨1, 0⟩ (fun m => 0 ≤ m.mutex ∧ m.mutex ≤ 1 ∧ 0 ≤ m.counter ∧
      m.counter ≤ iters.sum) ∧
    L.Completes t3Inc ⟨1, 0⟩ fun m => m.mutex = 1 ∧ m.counter = iters.sum := by
  have hstart : Excludes iters.sum ⟨1, 0⟩ (L.turns (⟨1, 0⟩ : Mem)).line :=
    .of_top (L.turns_line_snd _)
  constructor
  · refine L.always_of_kept (uses _) yieldsOnly (Excludes.kept hfits) hstart ?_
    intro m line h
    have hholder := h.holder
    have hsum := h.sum
    exact ⟨h.free, by omega, h.nonneg, by omega⟩
  · obtain ⟨d, -, h, hstuck, hdone, -⟩ := L.exists_settled (uses _) yieldsOnly (Excludes.kept hfits)
      hstart weight (fun _ => 0) t3Inc_of_stuck fun fin m _ k _ _ => t3Inc_lt fin m k
    have hmutex : d.mem.mutex = 1 := by
      have hholder := h.holder
      rw [List.countP_eq_zero.mpr] at hholder
      · exact (add_zero _).symm.trans hholder
      · intro x hx
        obtain ⟨⟨r, hr⟩, -⟩ := hstuck x hx
        simp [hr, Place.holder]
    have hl : d.line = [] := by
      refine List.eq_nil_iff_forall_not_mem.mpr fun x hx => ?_
      have := (hstuck x hx).2
      omega
    have hsum := h.sum
    rw [hl] at hsum
    refine (hdone hl).imp ?_
    rintro m rfl
    exact ⟨hmutex, (add_zero _).symm.trans hsum⟩

/-- `test_mutex_exclusion`: two coroutines, ten increments each. -/
theorem mutex_counts_twenty :
    (Launch.first ([10, 10].map Mutex.Place.top) (by decide)).Completes Mutex.t3Inc ⟨1, 0⟩
      fun m => m.mutex = 1 ∧ m.counter = 20 :=
  (mutex_counts (by decide) _).2

/-! ### Release -/

namespace Release

/-- `t5_sem` and `t5_release_order`. -/
structure Mem where
  sem : ℤ
  order : List ℕ

inductive Place where
  | waits (id : ℕ)
  /-- At the start of `t5_releaser`. -/
  | begins
  /-- At the test of its loop. -/
  | posts (i : ℕ)

/-- `t5_waiter` and `t5_releaser`, for `n` waiters. -/
def script (n : ℕ) : Script Mem Place := fun _ k m =>
  match k with
  | .waits id =>
      match semWait m.sem with
      | none => (m, .yield (.waits id))
      | some sem => (⟨sem, m.order ++ [id]⟩, .ret)
  | .begins => (m, .yield (.posts 0))
  | .posts i =>
      if i < n then ({ m with sem := semPost m.sem }, .yield (.posts (i + 1))) else (m, .ret)

def bodies (n : ℕ) : List Place := (List.range n).map .waits ++ [.begins]

theorem script_waits_of_le {n id : ℕ} {m : Mem} (h : m.sem ≤ 0) (fin : ℕ → Bool) :
    script n fin (.waits id) m = (m, .yield (.waits id)) := by
  simp [script, semWait_of_le h]

theorem script_waits_of_lt {n id : ℕ} {m : Mem} (h : 0 < m.sem) (fin : ℕ → Bool) :
    script n fin (.waits id) m = (⟨m.sem - 1, m.order ++ [id]⟩, .ret) := by
  simp [script, semWait_of_lt h]

theorem script_posts_of_lt {n i : ℕ} {m : Mem} (h : i < n) (fin : ℕ → Bool) :
    script n fin (.posts i) m = ({ m with sem := m.sem + 1 }, .yield (.posts (i + 1))) := by
  simp [script, h, semPost]

theorem script_posts_of_ge {n i : ℕ} {m : Mem} (h : ¬ i < n) (fin : ℕ → Bool) :
    script n fin (.posts i) m = (m, .ret) := by
  simp [script, h]

theorem yieldsOnly (n : ℕ) : (script n).YieldsOnly := by
  intro fin k m j k'
  cases k with
  | waits id =>
      simp only [script]
      split <;> simp
  | begins => simp [script]
  | posts i =>
      simp only [script]
      split <;> simp

theorem uses (n : ℕ) (H : ℕ → Prop) : (script n).Uses H :=
  (yieldsOnly n).uses (fun _ _ => rfl) H

/-- Where the releaser is when `j` waiters have been released and `r` have not: its last post has
been taken, or it has not. -/
def Posted (j r : ℕ) (sem : ℤ) (k : Place) : Prop :=
  sem = 0 ∧ (k = .begins ∧ j = 0 ∨ k = .posts j) ∨ sem = 1 ∧ 0 < r ∧ k = .posts (j + 1)

/-- Those in front of the releaser have not had their turn since its last one; those behind it had
theirs in vain, and were created before the others. -/
structure Rounds (n j r : ℕ) (m : Mem) (ahead behind : List (ℕ × Place)) (k : Place) : Prop where
  total : j + r = n
  order : m.order = List.range j
  waiters : (behind ++ ahead).map Prod.snd = (List.range' j r).map .waits
  posted : Posted j r m.sem k
  /-- A post is taken by the first one whose turn it is. -/
  fresh : m.sem = 1 → behind = []

namespace Rounds

variable {n j r i g : ℕ} {m : Mem} {A B : List (ℕ × Place)} {k kw : Place}

/-- The turn of a waiter. -/
theorem waits (h : Rounds n j r m ((i, kw) :: A) B k) (fin : ℕ → Bool) :
    ∃ j' r' A' B', Rounds n j' r' (script n fin kw m).1 A' B' k ∧
      Turns.settle i (A ++ (g, k) :: B) (script n fin kw m).2 = A' ++ (g, k) :: B' := by
  have hid : ∃ id, kw = .waits id := by
    have hmem : kw ∈ (List.range' j r).map Place.waits := by
      rw [← h.waiters]
      simp
    obtain ⟨id, -, rfl⟩ := List.mem_map.mp hmem
    exact ⟨id, rfl⟩
  obtain ⟨id, rfl⟩ := hid
  rcases h.posted with ⟨hsem, -⟩ | ⟨hsem, hr, rfl⟩
  · -- in vain
    rw [script_waits_of_le hsem.le]
    refine ⟨j, r, A, B ++ [(i, .waits id)], ⟨h.total, h.order, ?_, h.posted, ?_⟩, ?_⟩
    · rw [List.append_assoc]
      exact h.waiters
    · intro h1
      cases hsem.symm.trans h1
    · simp [Turns.settle]
  · -- it takes the post, and is the first one
    obtain rfl := h.fresh hsem
    obtain ⟨r, rfl⟩ := Nat.exists_eq_succ_of_ne_zero hr.ne'
    obtain ⟨hid, hA⟩ := List.cons.inj h.waiters
    obtain rfl := Place.waits.inj hid
    rw [script_waits_of_lt (hsem ▸ zero_lt_one)]
    refine ⟨id + 1, r, A, [], ⟨?_, ?_, hA, .inl ⟨?_, .inr rfl⟩, fun _ => rfl⟩, rfl⟩
    · rw [← h.total, Nat.succ_eq_add_one]
      omega
    · rw [h.order, List.range_succ]
    · rw [hsem]
      rfl

/-- The turn of the releaser: nobody is in front of it. -/
theorem releases (h : Rounds n j r m [] B k) (fin : ℕ → Bool) :
    (∃ j' r' k', Rounds n j' r' (script n fin k m).1 B [] k' ∧
      Turns.settle g B (script n fin k m).2 = B ++ [(g, k')]) ∨
    Turns.settle g B (script n fin k m).2 = [] ∧ (script n fin k m).1.order = List.range n := by
  have hB : B.map Prod.snd = (List.range' j r).map .waits := by
    have hw := h.waiters
    rwa [List.append_nil] at hw
  rcases h.posted with ⟨hsem, ⟨rfl, rfl⟩ | rfl⟩ | ⟨hsem, hr, rfl⟩
  · exact .inl ⟨0, r, .posts 0, ⟨h.total, h.order, hB, .inl ⟨hsem, .inr rfl⟩, fun _ => rfl⟩, rfl⟩
  · by_cases hj : j < n
    · rw [script_posts_of_lt hj]
      refine .inl ⟨j, r, .posts (j + 1),
        ⟨h.total, h.order, hB, .inr ⟨?_, ?_, rfl⟩, fun _ => rfl⟩, rfl⟩
      · show m.sem + 1 = 1
        rw [hsem, zero_add]
      · have := h.total
        omega
    · -- the last one has been released
      rw [script_posts_of_ge hj]
      have hr : r = 0 := by
        have := h.total
        omega
      obtain rfl : j = n := by
        have := h.total
        omega
      rw [hr] at hB
      exact .inr ⟨List.map_eq_nil_iff.mp hB, h.order⟩
  · -- a post that has not been taken has a waiter in front of it
    rw [h.fresh hsem] at hB
    obtain ⟨r, rfl⟩ := Nat.exists_eq_succ_of_ne_zero hr.ne'
    cases hB

end Rounds

/-- What holds between two turns. -/
def InRounds (n : ℕ) (m : Mem) (line : List (ℕ × Place)) : Prop :=
  (∃ j r A B g k, Rounds n j r m A B k ∧ line = A ++ (g, k) :: B) ∨
    line = [] ∧ m.order = List.range n

theorem InRounds.kept (n : ℕ) : Turns.Kept (script n) (InRounds n) := by
  rintro m i k' rest fin - (⟨j, r, A, B, g, k, h, hl⟩ | ⟨hl, -⟩)
  · cases A with
    | nil =>
        obtain ⟨hx, rfl⟩ := List.cons.inj hl
        obtain ⟨rfl, rfl⟩ := Prod.mk.inj hx
        rcases h.releases (g := i) fin with ⟨j', r', k', h', hs⟩ | ⟨hs, ho⟩
        · exact .inl ⟨j', r', rest, [], i, k', h', hs⟩
        · exact .inr ⟨hs, ho⟩
    | cons x A =>
        obtain ⟨rfl, rfl⟩ := List.cons.inj hl
        obtain ⟨j', r', A', B', h', hs⟩ := h.waits (g := g) fin
        exact .inl ⟨j', r', A', B', g, k, h', hs⟩
  · cases hl

def weight (n : ℕ) : Place → ℕ
  | .waits _ => 1
  | .begins => 2 * n + 2
  | .posts i => 2 * (n - i) + 1

def Stuck (m : Mem) (k : Place) : Prop := (∃ id, k = .waits id) ∧ m.sem ≤ 0

theorem script_of_stuck (n : ℕ) (fin : ℕ → Bool) (m : Mem) (k : Place) (h : Stuck m k) :
    script n fin k m = (m, .yield k) := by
  obtain ⟨⟨id, rfl⟩, hs⟩ := h
  exact script_waits_of_le hs fin

theorem script_lt (n : ℕ) (fin : ℕ → Bool) (m : Mem) (k : Place) (h : ¬ Stuck m k) :
    Turns.callWeight (weight n) (script n fin k m).2 + (script n fin k m).1.sem.toNat <
      weight n k + m.sem.toNat := by
  cases k with
  | waits id =>
      have hs : 0 < m.sem := not_le.mp fun hs => h ⟨⟨id, rfl⟩, hs⟩
      rw [script_waits_of_lt hs]
      show 0 + (m.sem - 1).toNat < 1 + m.sem.toNat
      omega
  | begins => exact Nat.add_lt_add_right (Nat.lt_succ_self _) _
  | posts i =>
      by_cases hi : i < n
      · rw [script_posts_of_lt hi]
        show 2 * (n - (i + 1)) + 1 + (m.sem + 1).toNat < 2 * (n - i) + 1 + m.sem.toNat
        omega
      · rw [script_posts_of_ge hi]
        exact Nat.add_lt_add_right (Nat.succ_pos _) _

end Release

open Release in
/-- **First come, first served.**  The waiters are released in the order of their creation, one for
each post, and all of them are. -/
theorem released_in_order (n : ℕ) (L : Launch (bodies n)) :
    L.Always (script n) ⟨0, []⟩ (fun m => ∃ j ≤ n, m.order = List.range j) ∧
    L.Completes (script n) ⟨0, []⟩ fun m => m.order = List.range n := by
  have hstart : InRounds n (L.turns (⟨0, []⟩ : Mem)).mem (L.turns (⟨0, []⟩ : Mem)).line := by
    have hline : (L.turns (⟨0, []⟩ : Mem)).line.map Prod.snd = bodies n := L.turns_line_snd _
    obtain ⟨A, C, hl, hA, hC⟩ := List.map_eq_append_iff.mp hline
    obtain ⟨⟨g, k⟩, D, rfl, rfl, hD⟩ := List.map_eq_cons_iff.mp hC
    obtain rfl := List.map_eq_nil_iff.mp hD
    refine .inl ⟨0, n, A, [], g, .begins, ⟨Nat.zero_add n, rfl, ?_, .inl ⟨rfl, .inl ⟨rfl, rfl⟩⟩,
      fun _ => rfl⟩, hl⟩
    rw [List.nil_append, hA, List.range_eq_range']
  constructor
  · refine L.always_of_kept (uses n _) (yieldsOnly n) (InRounds.kept n) hstart ?_
    rintro m line (⟨j, r, A, B, g, k, h, -⟩ | ⟨-, ho⟩)
    · exact ⟨j, h.total ▸ Nat.le_add_right j r, h.order⟩
    · exact ⟨n, le_rfl, ho⟩
  · obtain ⟨d, -, ⟨j, r, A, B, g, k, h, hl⟩ | ⟨hl, ho⟩, hstuck, hdone, -⟩ :=
      L.exists_settled (uses n _) (yieldsOnly n) (InRounds.kept n) hstart (weight n)
        (fun m => m.sem.toNat) (script_of_stuck n) fun fin m _ k _ _ => script_lt n fin m k
    · -- the releaser is not stuck
      obtain ⟨⟨id, rfl⟩, -⟩ : Stuck d.mem k := hstuck (g, k) (by simp [hl])
      rcases h.posted with ⟨-, ⟨hk, -⟩ | hk⟩ | ⟨-, -, hk⟩
      · cases hk
      · cases hk
      · cases hk
    · refine (hdone hl).imp ?_
      rintro m rfl
      exact ho

/-- `test_fifo_release`: four waiters. -/
theorem released_in_order_four :
    (Launch.first (Release.bodies 4) (by decide)).Completes (Release.script 4) ⟨0, []⟩
      fun m => m.order = [0, 1, 2, 3] :=
  (released_in_order 4 _).2

end CCoroutine.Clients.Semaphore
