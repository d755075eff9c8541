import CCoroutine.Clients.Launches
import CCoroutine.Support.Lists

/-!
# Clients — Stress

The two programs of `tests/test_stress.c`.  In the first, coroutines yield a number of times and
count themselves.  In the second, each coroutine of a chain awaits the next one, asserts that all
behind it are done, and marks itself.

All coroutines of the first program come to their end (`many_yields_complete`).  Main creates the
chain of the second one from its end, so that no `co_await` of the test blocks.  The assertions hold
in whatever order the chain is created, where some coroutines find the next one done and others wait
for it (`await_chain`).
-/

namespace CCoroutine.Clients.Stress
open Support (Call Script Turns)

/-- `t1_body`, with so many yields to come; the memory is `t1_counter`. -/
def t1Body : Script ℕ ℕ := fun _ yields counter =>
  match yields with
  | 0 => (counter + 1, .ret)
  | k + 1 => (counter, .yield k)

/-- `t2_done`, and whether an assertion has failed. -/
structure Mem where
  done : ℕ → ℕ
  failed : Bool

/-- In `t2_body`: at its start, and behind `co_await`. -/
inductive Place where
  | start (idx : ℕ)
  | resumed (idx : ℕ)

/-- `t2_body`, where `chain` has `len` coroutines. -/
def t2Body (len : ℕ) (chain : ℕ → ℕ) : Script Mem Place := fun fin k m =>
  match k with
  | .start idx =>
      if idx + 1 < len then (m, .await (chain (idx + 1)) (.resumed idx))
      else ({ m with done := Function.update m.done idx 1 }, .ret)
  | .resumed idx =>
      let holds := (List.range' (idx + 1) (len - (idx + 1))).all fun j => fin (chain j)
      (⟨Function.update m.done idx 1, m.failed || !holds⟩, .ret)

/-! ### The chain -/

section Chain

variable {len : ℕ} {chain : ℕ → ℕ} {c : Turns Mem Place} {i idx : ℕ} {k : Place}
  {rest : List (ℕ × Place)} {fin : ℕ → Bool} {m : Mem}

theorem t2Body_await (h : idx + 1 < len) :
    t2Body len chain fin (.start idx) m = (m, .await (chain (idx + 1)) (.resumed idx)) := by
  rw [t2Body, if_pos h]

theorem t2Body_last (h : ¬ idx + 1 < len) :
    t2Body len chain fin (.start idx) m =
      ({ m with done := Function.update m.done idx 1 }, .ret) := by
  rw [t2Body, if_neg h]

theorem t2Body_resumed (h : ∀ j, idx < j → j < len → fin (chain j) = true) :
    t2Body len chain fin (.resumed idx) m =
      ({ m with done := Function.update m.done idx 1 }, .ret) := by
  have hall : ((List.range' (idx + 1) (len - (idx + 1))).all fun j => fin (chain j)) = true := by
    rw [List.all_eq_true]
    intro j hj
    obtain ⟨h₁, h₂⟩ := List.mem_range'_1.mp hj
    exact h j h₁ (by omega)
  simp [t2Body, hall]

/-- What holds between two turns.  Where a coroutine is done, all behind it are. -/
structure Linked (len : ℕ) (chain : ℕ → ℕ) (c : Turns Mem Place) : Prop extends c.Sound where
  line : ∀ x ∈ c.line, ∃ idx < len, x.1 = chain idx ∧ (x.2 = .start idx ∨ x.2 = .resumed idx ∧
    ∀ j, idx < j → j < len → c.finished (chain j) = true)
  blocked : ∀ x ∈ c.blocked, ∃ idx, idx + 1 < len ∧ x = (chain idx, chain (idx + 1), .resumed idx)
  later : ∀ idx j, idx < j → j < len → c.finished (chain idx) = true → c.finished (chain j) = true
  done : ∀ idx < len, c.finished (chain idx) = true → c.mem.done idx = 1
  passed : c.mem.failed = false

namespace Linked

variable (hinj : ∀ a < len, ∀ b < len, chain a = chain b → a = b)

/-- A coroutine awaits the next one. -/
theorem awaits (h : Linked len chain c) (hl : c.line = (chain idx, .start idx) :: rest)
    (hidx : idx + 1 < len) : Linked len chain (Turns.step (t2Body len chain) c) := by
  have hcode : t2Body len chain c.finished (.start idx) c.mem =
      (c.mem, .await (chain (idx + 1)) (.resumed idx)) := t2Body_await hidx
  have hfin : (Turns.step (t2Body len chain) c).finished = c.finished :=
    h.toSound.finished_step hl (by simp [hcode])
  have hrest : ∀ x ∈ rest, x ∈ c.line := by
    intro x hx
    rw [hl]
    exact List.mem_cons_of_mem _ hx
  by_cases hj : c.finished (chain (idx + 1)) = true
  · have hstep := Turns.step_of_await hl hcode hj
    refine ⟨h.toSound.step, ?_, ?_, ?_, ?_, ?_⟩
    · rw [hfin, hstep]
      intro x hx
      rcases List.mem_cons.mp hx with rfl | hx
      · refine ⟨idx, Nat.lt_of_succ_lt hidx, rfl, .inr ⟨rfl, ?_⟩⟩
        intro j h₁ h₂
        rcases Nat.eq_or_lt_of_le h₁ with rfl | hlt
        · exact hj
        · exact h.later (idx + 1) j hlt h₂ hj
      · exact h.line x (hrest x hx)
    · rw [hstep]
      exact h.blocked
    · rw [hfin]
      exact h.later
    · rw [hfin, hstep]
      exact h.done
    · rw [hstep]
      exact h.passed
  · have hstep := Turns.step_of_block hl hcode (by simpa using hj)
    refine ⟨h.toSound.step, ?_, ?_, ?_, ?_, ?_⟩
    · rw [hfin, hstep]
      intro x hx
      exact h.line x (hrest x hx)
    · rw [hstep]
      intro x hx
      rcases (Support.mem_enter (h.toSound.not_mem_blocked hl)).mp hx with rfl | hx
      · exact ⟨idx, hidx, rfl⟩
      · exact h.blocked x hx
    · rw [hfin]
      exact h.later
    · rw [hfin, hstep]
      exact h.done
    · rw [hstep]
      exact h.passed

include hinj in
/-- A coroutine marks itself and returns, when all behind it are done; the one that waits for it
goes on. -/
theorem returns (h : Linked len chain c) (hl : c.line = (chain idx, k) :: rest) (hidx : idx < len)
    (hlater : ∀ j, idx < j → j < len → c.finished (chain j) = true)
    (hcode : t2Body len chain c.finished k c.mem =
      ({ c.mem with done := Function.update c.mem.done idx 1 }, .ret)) :
    Linked len chain (Turns.step (t2Body len chain) c) := by
  have hfin := h.toSound.finished_ret hl hcode
  have hmono : ∀ j, c.finished j = true → (Turns.step (t2Body len chain) c).finished j = true :=
    fun j hj => (hfin j).mpr (.inl hj)
  have hself : (Turns.step (t2Body len chain) c).finished (chain idx) = true :=
    (hfin _).mpr (.inr rfl)
  have hstep := Turns.step_of_ret hl hcode
  have hline : ∀ x ∈ (Turns.step (t2Body len chain) c).line,
      x ∈ rest ∨ x ∈ c.woken (chain idx) := by
    rw [hstep]
    intro x hx
    exact List.mem_append.mp hx
  refine ⟨h.toSound.step, ?_, ?_, ?_, ?_, ?_⟩
  · intro x hx
    rcases hline x hx with hx | hx
    · obtain ⟨e, he, hxe, hplace⟩ := h.line x (hl ▸ List.mem_cons_of_mem _ hx)
      exact ⟨e, he, hxe, hplace.imp_right fun ⟨hr, hd⟩ => ⟨hr, fun j h₁ h₂ => hmono _ (hd j h₁ h₂)⟩⟩
    · -- the one in front of it
      obtain ⟨y, hy, rfl⟩ := List.mem_map.mp hx
      obtain ⟨hy, hyi⟩ := List.mem_filter.mp hy
      obtain ⟨e, he, rfl⟩ := h.blocked y hy
      obtain rfl : e + 1 = idx := hinj _ he _ hidx (of_decide_eq_true hyi)
      refine ⟨e, Nat.lt_of_succ_lt he, rfl, .inr ⟨rfl, ?_⟩⟩
      intro j h₁ h₂
      rcases Nat.eq_or_lt_of_le h₁ with rfl | hlt
      · exact hself
      · exact hmono _ (hlater j hlt h₂)
  · rw [hstep]
    intro x hx
    exact h.blocked x (List.mem_of_mem_filter hx)
  · intro e j h₁ h₂ he
    rcases (hfin _).mp he with he | he
    · exact hmono _ (h.later e j h₁ h₂ he)
    · obtain rfl : e = idx := hinj _ (h₁.trans h₂) _ hidx he
      exact hmono _ (hlater j h₁ h₂)
  · intro e he hd
    have hdone : (Turns.step (t2Body len chain) c).mem.done = Function.update c.mem.done idx 1 := by
      rw [hstep]
    rw [hdone]
    by_cases heq : e = idx
    · rw [heq, Function.update_self]
    · rw [Function.update_of_ne heq]
      refine h.done e he (((hfin _).mp hd).resolve_right fun hc => heq ?_)
      exact hinj _ he _ hidx hc
  · rw [hstep]
    exact h.passed

include hinj in
/-- **A turn keeps the invariant.** -/
theorem step (h : Linked len chain c) : Linked len chain (Turns.step (t2Body len chain) c) := by
  cases hl : c.line with
  | nil => rwa [Turns.step_of_nil hl]
  | cons x rest =>
      obtain ⟨i, k⟩ := x
      obtain ⟨idx, hidx, rfl, hplace⟩ := h.line (i, k) (hl ▸ List.mem_cons_self)
      rcases hplace with rfl | ⟨rfl, hd⟩
      · by_cases hn : idx + 1 < len
        · exact h.awaits hl hn
        · refine h.returns hinj hl hidx ?_ (t2Body_last hn)
          intro j h₁ h₂
          exact absurd (Nat.lt_of_le_of_lt h₁ h₂) hn
      · exact h.returns hinj hl hidx hd (t2Body_resumed hd)

include hinj in
/-- Behind a coroutine that waits is one that waits, unless one can go on: so none waits when none
can go on. -/
theorem blocked_nil (h : Linked len chain c) (hl : c.line = []) : c.blocked = [] := by
  have hnext : ∀ e, e + 1 < len → (chain e, chain (e + 1), Place.resumed e) ∈ c.blocked →
      ∃ e', e < e' ∧ e' + 1 < len ∧ (chain e', chain (e' + 1), Place.resumed e') ∈ c.blocked := by
    intro e he hx
    have hnot : chain (e + 1) ∈ c.numbers := by
      by_contra hn
      have hw := h.waits _ hx
      rw [Turns.finished_iff_numbers.mpr hn] at hw
      cases hw
    rw [Turns.numbers, hl, List.map_nil, List.nil_append] at hnot
    obtain ⟨y, hy, hye⟩ := List.mem_map.mp hnot
    obtain ⟨e', he', rfl⟩ := h.blocked y hy
    obtain rfl : e' = e + 1 := hinj _ (Nat.lt_of_succ_lt he') _ he hye
    exact ⟨e + 1, Nat.lt_succ_self e, he', hy⟩
  have hnone : ∀ d e, e + d = len → e + 1 < len →
      (chain e, chain (e + 1), Place.resumed e) ∉ c.blocked := by
    intro d
    induction d using Nat.strong_induction_on with
    | _ d ih =>
        intro e hd he hx
        obtain ⟨e', hlt, he', hx'⟩ := hnext e he hx
        exact ih (len - e') (by omega) e' (by omega) he' hx'
  refine List.eq_nil_iff_forall_not_mem.mpr fun x hx => ?_
  obtain ⟨e, he, rfl⟩ := h.blocked x hx
  exact hnone (len - e) e (by omega) he hx

include hinj in
/-- Nobody is waited for by two. -/
theorem woken_le (h : Linked len chain c) (j : ℕ) : (c.woken j).length ≤ 1 := by
  have heq : ∀ x ∈ c.blocked, ∀ y ∈ c.blocked, x.2.1 = y.2.1 → x = y := by
    intro x hx y hy e
    obtain ⟨a, ha, rfl⟩ := h.blocked x hx
    obtain ⟨b, hb, rfl⟩ := h.blocked y hy
    obtain rfl : a = b := Nat.succ_injective (hinj _ ha _ hb e)
    rfl
  have hnd : (c.blocked.filter fun x => x.2.1 = j).Nodup :=
    (List.Nodup.of_map _ (List.nodup_append.mp h.nodup).2.1).filter _
  rw [Turns.woken, List.length_map]
  refine Support.length_le_one hnd fun x hx y hy => ?_
  obtain ⟨hx, hxj⟩ := List.mem_filter.mp hx
  obtain ⟨hy, hyj⟩ := List.mem_filter.mp hy
  exact heq x hx y hy ((of_decide_eq_true hxj).trans (of_decide_eq_true hyj).symm)

end Linked

def weight : Place → ℕ
  | .start _ => 2
  | .resumed _ => 1

/-- What is left to do. -/
def left (c : Turns Mem Place) : ℕ := (c.line.map fun x => weight x.2).sum + c.blocked.length

/-- Those that wait have as much left to do when they are back in the line. -/
theorem Linked.left_woken (h : Linked len chain c) (i : ℕ) :
    ((c.woken i).map fun x => weight x.2).sum + (c.blocked.filter fun x => x.2.1 ≠ i).length =
      c.blocked.length := by
  have hone : ∀ x ∈ c.blocked.filter (fun x => x.2.1 = i), weight x.2.2 = 1 := by
    intro x hx
    obtain ⟨e, -, rfl⟩ := h.blocked x (List.mem_of_mem_filter hx)
    rfl
  have hsum : ((c.woken i).map fun x => weight x.2).sum =
      (c.blocked.filter fun x => x.2.1 = i).length := by
    rw [Turns.woken, List.map_map]
    show ((c.blocked.filter fun x => x.2.1 = i).map fun x => weight x.2.2).sum = _
    rw [List.map_congr_left hone, List.map_const', List.sum_replicate_nat, Nat.mul_one]
  have hlen := List.length_eq_length_filter_add (l := c.blocked) fun x => decide (x.2.1 = i)
  rw [hsum, hlen]
  simp

/-- **Every turn gets a coroutine closer to its end.** -/
theorem Linked.left_lt (h : Linked len chain c) (hl : c.line = (i, k) :: rest) :
    left (Turns.step (t2Body len chain) c) < left c := by
  have hleft : left c = weight k + (rest.map fun x => weight x.2).sum + c.blocked.length := by
    rw [left, hl]
    rfl
  have hret : ∀ {m}, t2Body len chain c.finished k c.mem = (m, .ret) → 0 < weight k →
      left (Turns.step (t2Body len chain) c) < left c := by
    intro m hcode hk
    have hwoken := h.left_woken i
    have hafter : left (Turns.step (t2Body len chain) c) = (rest.map fun x => weight x.2).sum +
        ((c.woken i).map fun x => weight x.2).sum +
          (c.blocked.filter fun x => x.2.1 ≠ i).length := by
      rw [Turns.step_of_ret hl hcode, left, List.map_append, List.sum_append]
    omega
  obtain ⟨idx, hidx, rfl, hplace⟩ := h.line (i, k) (hl ▸ List.mem_cons_self)
  rcases hplace with rfl | ⟨rfl, hd⟩
  · by_cases hn : idx + 1 < len
    · have hcode : t2Body len chain c.finished (.start idx) c.mem =
          (c.mem, .await (chain (idx + 1)) (.resumed idx)) := t2Body_await hn
      by_cases hj : c.finished (chain (idx + 1)) = true
      · rw [hleft, Turns.step_of_await hl hcode hj]
        exact Nat.add_lt_add_right (Nat.add_lt_add_right Nat.one_lt_two _) _
      · have hp := Support.perm_enter (x := (chain idx, chain (idx + 1), Place.resumed idx))
          (h.toSound.not_mem_blocked hl)
        have hafter : left (Turns.step (t2Body len chain) c) =
            (rest.map fun x => weight x.2).sum + (c.blocked.length + 1) := by
          rw [Turns.step_of_block hl hcode (by simpa using hj), left, hp.length_eq,
            List.length_cons]
        have htwo : weight (.start idx) = 2 := rfl
        omega
    · exact hret (t2Body_last hn) Nat.two_pos
  · exact hret (t2Body_resumed hd) Nat.one_pos

end Chain

/-! ### The tests -/

/-- Each coroutine that is done has counted itself. -/
theorem t1Body_kept (n : ℕ) : Turns.Kept t1Body fun counter line => counter + line.length = n := by
  rintro counter i (_ | k) rest fin - h
  · show counter + 1 + rest.length = n
    rw [← h, List.length_cons, Nat.add_assoc, Nat.add_comm 1]
  · show counter + (rest ++ [(i, k)]).length = n
    rw [← h, List.length_append]
    rfl

theorem many_yields_complete {yields : List ℕ} (L : Launch yields) :
    L.Completes t1Body 0 fun counter => counter = yields.length := by
  have hyields : t1Body.YieldsOnly := by
    intro fin k m j k' h
    cases k with
    | zero => cases h
    | succ k => cases h
  have hstart : (L.turns 0).mem + (L.turns 0).line.length = yields.length := by
    rw [← List.length_map Prod.snd, L.turns_line_snd]
    exact Nat.zero_add _
  have hlt : ∀ (fin : ℕ → Bool) (m k : ℕ), ¬ False →
      Turns.callWeight (· + 1) (t1Body fin k m).2 + 0 < k + 1 + 0 := by
    rintro fin m (_ | k) -
    · exact Nat.zero_lt_one
    · exact Nat.lt_succ_self _
  obtain ⟨d, -, h, hstuck, hdone, -⟩ := L.exists_settled (hyields.uses (fun _ _ => rfl) _) hyields
    (t1Body_kept _) hstart (· + 1) (fun _ => 0) (fun _ _ _ (h : False) => h.elim)
    fun fin m _ k _ _ => hlt fin m k
  have hl : d.line = [] := List.eq_nil_iff_forall_not_mem.mpr hstuck
  rw [hl] at h
  refine (hdone hl).imp ?_
  rintro m rfl
  exact h

section Order

variable {len : ℕ} {order : List ℕ}

/-- The id of `chain[j]`, where `order` is the order in which the chain is created. -/
def chainOf (L : Launch (order.map Place.start)) (j : ℕ) : ℕ := L.s.all.length + 1 + order.idxOf j

variable (horder : order.Perm (List.range len)) (L : Launch (order.map Place.start))

include horder

theorem chainOf_inj {a b : ℕ} (ha : a < len) (h : chainOf L a = chainOf L b) : a = b := by
  have hmem : a ∈ order := horder.mem_iff.mpr (List.mem_range.mpr ha)
  exact (List.idxOf_inj hmem).mp (Nat.add_left_cancel h)

theorem chainOf_handle {j : ℕ} (hj : j < len) : L.Handle (chainOf L j) := by
  have hlt := List.idxOf_lt_length_iff.mpr (horder.mem_iff.mpr (List.mem_range.mpr hj))
  refine ⟨?_, ?_⟩
  · unfold chainOf
    omega
  · rw [List.length_map]
    unfold chainOf
    omega

theorem uses : (t2Body len (chainOf L)).Uses L.Handle := by
  refine ⟨?_, ?_⟩
  · intro fin k m j k' h
    cases k with
    | start idx =>
        by_cases hn : idx + 1 < len
        · rw [t2Body_await hn] at h
          cases h
          exact chainOf_handle horder L hn
        · rw [t2Body_last hn] at h
          cases h
    | resumed idx => cases h
  · intro fin fin' k m hfin
    cases k with
    | start idx => rfl
    | resumed idx =>
        have hall : ((List.range' (idx + 1) (len - (idx + 1))).all fun j => fin (chainOf L j)) =
            (List.range' (idx + 1) (len - (idx + 1))).all fun j => fin' (chainOf L j) := by
          rw [Bool.eq_iff_iff, List.all_eq_true, List.all_eq_true]
          refine forall₂_congr fun j hj => ?_
          obtain ⟨h₁, h₂⟩ := List.mem_range'_1.mp hj
          rw [hfin _ (chainOf_handle horder L (by omega))]
        simp only [t2Body, hall]

theorem linked_start : Linked len (chainOf L) (L.turns ⟨0, false⟩) := by
  have hfst : (L.turns (⟨0, false⟩ : Mem)).line.map Prod.fst =
      List.range' (L.s.all.length + 1) order.length := by
    rw [Launch.turns, List.map_fst_zip (by simp), List.length_map]
  have hnumbers : (L.turns (⟨0, false⟩ : Mem)).numbers =
      List.range' (L.s.all.length + 1) order.length := by
    rw [Turns.numbers, hfst]
    exact List.append_nil _
  have hnot : ∀ j < len, (L.turns (⟨0, false⟩ : Mem)).finished (chainOf L j) ≠ true := by
    intro j hj
    have hlt := List.idxOf_lt_length_iff.mpr (horder.mem_iff.mpr (List.mem_range.mpr hj))
    rw [Ne, Turns.finished_iff_numbers, hnumbers, not_not, List.mem_range'_1]
    unfold chainOf
    omega
  refine ⟨⟨?_, ?_⟩, ?_, ?_, ?_, ?_, rfl⟩
  · rw [hnumbers]
    exact List.nodup_range'
  · intro x hx
    cases hx
  · intro x hx
    obtain ⟨n, hn, rfl⟩ := List.getElem_of_mem hx
    have hlen : n < order.length := by simpa [Launch.turns] using hn
    have hnd : order.Nodup := horder.nodup_iff.mpr List.nodup_range
    refine ⟨order[n], ?_, ?_, .inl ?_⟩
    · exact List.mem_range.mp (horder.mem_iff.mp (List.getElem_mem hlen))
    · simp [Launch.turns, chainOf, hnd.idxOf_getElem]
    · simp [Launch.turns]
  · intro x hx
    cases hx
  · intro idx j h₁ h₂ h
    exact absurd h (hnot idx (h₁.trans h₂))
  · intro idx hidx h
    exact absurd h (hnot idx hidx)

end Order

/-- **The chain of awaits**, created in any order: no assertion fails at any step, and `co_run`
returns with every coroutine marked. -/
theorem await_chain {len : ℕ} {order : List ℕ} (horder : order.Perm (List.range len))
    (L : Launch (order.map Place.start)) :
    L.Always (t2Body len (chainOf L)) ⟨0, false⟩ (fun m => m.failed = false) ∧
    L.Completes (t2Body len (chainOf L)) ⟨0, false⟩ fun m =>
      m.failed = false ∧ ∀ idx < len, m.done idx = 1 := by
  have hinj : ∀ a < len, ∀ b < len, chainOf L a = chainOf L b → a = b :=
    fun a ha b _ h => chainOf_inj horder L ha h
  have hlinked : ∀ n, Linked len (chainOf L)
      ((Turns.step (t2Body len (chainOf L)))^[n] (L.turns ⟨0, false⟩)) := fun n =>
    Function.Iterate.rec (Linked len (chainOf L)) (linked_start horder L)
      (fun _ h => Linked.step hinj h) n
  have hord : L.NoReuse ∨ Turns.Singly (t2Body len (chainOf L)) (L.turns ⟨0, false⟩) :=
    .inr fun n j => Linked.woken_le hinj (hlinked n) j
  refine ⟨L.always (uses horder L) hord fun n => (hlinked n).passed, ?_⟩
  obtain ⟨n, hn⟩ := Turns.exists_spinning left (fun c h => Linked.step hinj h)
    (fun c line hp => congrArg (· + c.blocked.length) (hp.map _).sum_eq)
    (fun c i k rest h hl _ => h.left_lt hl) (linked_start horder L)
  -- no place of the code spins
  have hl : ((Turns.step (t2Body len (chainOf L)))^[n] (L.turns ⟨0, false⟩)).line = [] := by
    refine List.eq_nil_iff_forall_not_mem.mpr fun x hx => ?_
    obtain ⟨idx, -, -, hplace⟩ := (hlinked n).line x hx
    have hspin := hn x hx
    rcases hplace with hk | ⟨hk, hd⟩
    · rw [Turns.Spins, hk] at hspin
      by_cases hlast : idx + 1 < len
      · rw [t2Body_await hlast] at hspin
        cases hspin
      · rw [t2Body_last hlast] at hspin
        cases congrArg Prod.snd hspin
    · rw [Turns.Spins, hk, t2Body_resumed hd] at hspin
      cases congrArg Prod.snd hspin
  have hb := Linked.blocked_nil hinj (hlinked n) hl
  refine L.completes (uses horder L) hord hl hb ⟨(hlinked n).passed, ?_⟩
  intro idx hidx
  refine (hlinked n).done idx hidx ?_
  rw [Turns.finished_iff_numbers, Turns.numbers, hl, hb]
  exact List.not_mem_nil

/-- Three coroutines: the second and the first one wait, each for the next. -/
theorem await_chain_three :
    (Launch.first ([1, 0, 2].map Place.start) (by decide)).Completes
      (t2Body 3 (chainOf (Launch.first ([1, 0, 2].map Place.start) (by decide)))) ⟨0, false⟩
      fun m => m.failed = false ∧ ∀ idx < 3, m.done idx = 1 :=
  (await_chain (by decide) _).2

end CCoroutine.Clients.Stress
