import Mathlib.Algebra.BigOperators.Group.List.Basic
import Mathlib.Algebra.Order.Ring.Nat
import Mathlib.Data.List.Sort
import Mathlib.Logic.Function.Iterate

/-!
# Support — Cooperative

Tasks that share a memory and take turns.  The task at the head of the line executes its code up to
its next call: it goes to the end of the line, or waits for another task to finish, or finishes and
lets those that wait for it back into the line, in the order of their numbers.

A task that finds nothing to do and yields with the memory as it was *spins*.  A line in which every
task spins stays as it is for ever (`Turns.spinning`).  Otherwise the first task that does not spin
gets its turn (`Turns.spin`); so when every other turn decreases a measure, the tasks come to a
point where all that are left spin, or none is left (`Turns.exists_spinning`).

Where the code only yields, the memory and the line are the whole state.  `Turns.invariant` and
`Turns.exists_all_spin` are the rules for such code: what one turn keeps, and what it decreases.
-/

namespace Support

/-- What the code of a task stops at; `k` is where it goes on. -/
inductive Call (κ : Type) where
  | yield (k : κ)
  /-- Go on when the task `j` has finished. -/
  | await (j : ℕ) (k : κ)
  | ret

/-- Where the task goes on; nowhere after its return. -/
def Call.place {κ : Type} : Call κ → Option κ
  | yield k | await _ k => some k
  | ret => none

/-- The code of the tasks.  `f fin k m` executes the code at the place `k`, which includes the local
variables of the task, on the memory `m`, up to the next call; `fin` are the tasks that have
finished. -/
abbrev Script (σ κ : Type) := (ℕ → Bool) → κ → σ → σ × Call κ

namespace Script

variable {σ κ : Type}

/-- No task waits for another one to finish. -/
def YieldsOnly (f : Script σ κ) : Prop := ∀ fin k m j k', (f fin k m).2 ≠ .await j k'

/-- The code uses no task outside `H`. -/
structure Uses (f : Script σ κ) (H : ℕ → Prop) : Prop where
  await : ∀ fin k m j k', (f fin k m).2 = .await j k' → H j
  fin : ∀ fin fin' k m, (∀ j, H j → fin j = fin' j) → f fin k m = f fin' k m

/-- Code that neither waits for a task nor asks whether one has finished uses none. -/
theorem YieldsOnly.uses {f : Script σ κ} (hf : f.YieldsOnly) (hfin : ∀ fin fin', f fin = f fin')
    (H : ℕ → Prop) : f.Uses H :=
  ⟨fun fin k m j k' h => absurd h (hf fin k m j k'),
    fun fin fin' k m _ => congrFun (congrFun (hfin fin fin') k) m⟩

end Script

/-- Tasks taking turns, by their numbers.  The head of the line is the task whose turn it is. -/
structure Turns (σ κ : Type) where
  mem : σ
  line : List (ℕ × κ)
  /-- Number, what it waits for, and where it goes on; in the order of the numbers. -/
  blocked : List (ℕ × ℕ × κ)

/-- `x` takes its place in a list that is in the order of the numbers. -/
def enter {α : Type} (x : ℕ × α) (l : List (ℕ × α)) : List (ℕ × α) :=
  (l.filter fun y => y.1 < x.1) ++ x :: l.filter fun y => x.1 < y.1

section Enter

variable {α : Type} {x y : ℕ × α} {l : List (ℕ × α)}

theorem mem_enter (hx : ∀ z ∈ l, z.1 ≠ x.1) : y ∈ enter x l ↔ y = x ∨ y ∈ l := by
  simp only [enter, List.mem_append, List.mem_cons, List.mem_filter, decide_eq_true_eq]
  constructor
  · rintro (⟨h, -⟩ | h | ⟨h, -⟩)
    · exact .inr h
    · exact .inl h
    · exact .inr h
  · rintro (h | h)
    · exact .inr (.inl h)
    · rcases lt_or_gt_of_ne (hx y h) with hlt | hlt
      · exact .inl ⟨h, hlt⟩
      · exact .inr (.inr ⟨h, hlt⟩)

theorem perm_enter (hx : ∀ z ∈ l, z.1 ≠ x.1) : (enter x l).Perm (x :: l) := by
  have hgt : (l.filter fun y => x.1 < y.1) = l.filter fun y => !decide (y.1 < x.1) := by
    refine List.filter_congr fun y hy => ?_
    rw [← decide_not, decide_eq_decide, not_lt]
    exact ⟨le_of_lt, fun h => lt_of_le_of_ne h (hx y hy).symm⟩
  rw [enter, hgt]
  exact List.perm_middle.trans ((List.filter_append_perm _ l).cons x)

theorem sorted_enter (h : (l.map Prod.fst).SortedLT) : ((enter x l).map Prod.fst).SortedLT := by
  rw [List.sortedLT_iff_pairwise, List.pairwise_map] at h ⊢
  refine List.pairwise_append.mpr ⟨h.filter _, List.pairwise_cons.mpr ⟨?_, h.filter _⟩, ?_⟩
  · intro z hz
    exact of_decide_eq_true (List.mem_filter.mp hz).2
  · intro z hz w hw
    have hzx : z.1 < x.1 := of_decide_eq_true (List.mem_filter.mp hz).2
    rcases List.mem_cons.mp hw with rfl | hw
    · exact hzx
    · exact hzx.trans (of_decide_eq_true (List.mem_filter.mp hw).2)

end Enter

namespace Turns

variable {σ κ : Type} {f : Script σ κ} {c : Turns σ κ} {i : ℕ} {k : κ} {rest : List (ℕ × κ)}

/-- The task `j` is neither in the line nor waiting. -/
def finished (c : Turns σ κ) (j : ℕ) : Bool :=
  decide (j ∉ c.line.map Prod.fst ∧ j ∉ c.blocked.map Prod.fst)

/-- The tasks that wait for `i` are back in the line, those with the smaller numbers first. -/
def woken (c : Turns σ κ) (i : ℕ) : List (ℕ × κ) :=
  (c.blocked.filter fun x => x.2.1 = i).map fun x => (x.1, x.2.2)

/-- The head of the line executes up to its next call; nothing happens when the line is empty. -/
def step (f : Script σ κ) (c : Turns σ κ) : Turns σ κ :=
  match c.line with
  | [] => c
  | (i, k) :: rest =>
      let (m, call) := f c.finished k c.mem
      match call with
      | .yield k' => { c with mem := m, line := rest ++ [(i, k')] }
      | .await j k' =>
          if c.finished j then { c with mem := m, line := (i, k') :: rest }
          else { mem := m, line := rest, blocked := enter (i, j, k') c.blocked }
      | .ret =>
          { mem := m, line := rest ++ c.woken i, blocked := c.blocked.filter fun x => x.2.1 ≠ i }

theorem step_of_nil (h : c.line = []) : step f c = c := by
  simp [step, h]

theorem step_of_yield {m : σ} {k' : κ} (h : c.line = (i, k) :: rest)
    (hf : f c.finished k c.mem = (m, .yield k')) :
    step f c = { c with mem := m, line := rest ++ [(i, k')] } := by
  simp [step, h, hf]

theorem step_of_await {m : σ} {j : ℕ} {k' : κ} (h : c.line = (i, k) :: rest)
    (hf : f c.finished k c.mem = (m, .await j k')) (hj : c.finished j = true) :
    step f c = { c with mem := m, line := (i, k') :: rest } := by
  simp [step, h, hf, hj]

theorem step_of_block {m : σ} {j : ℕ} {k' : κ} (h : c.line = (i, k) :: rest)
    (hf : f c.finished k c.mem = (m, .await j k')) (hj : c.finished j = false) :
    step f c = { mem := m, line := rest, blocked := enter (i, j, k') c.blocked } := by
  simp [step, h, hf, hj]

theorem step_of_ret {m : σ} (h : c.line = (i, k) :: rest)
    (hf : f c.finished k c.mem = (m, .ret)) :
    step f c = { mem := m, line := rest ++ c.woken i
                 blocked := c.blocked.filter fun x => x.2.1 ≠ i } := by
  simp [step, h, hf]

/-- With nobody waiting, a task that finishes leaves the line. -/
theorem step_of_ret_alone {m : σ} (h : c.line = (i, k) :: rest) (hb : c.blocked = [])
    (hf : f c.finished k c.mem = (m, .ret)) : step f c = { c with mem := m, line := rest } := by
  simp [step_of_ret h hf, woken, hb]

/-- Where nobody waits and the code only yields, nobody will wait. -/
theorem blocked_step (hf : f.YieldsOnly) (hb : c.blocked = []) : (step f c).blocked = [] := by
  cases hl : c.line with
  | nil => rw [step_of_nil hl, hb]
  | cons x rest =>
      obtain ⟨i, k⟩ := x
      cases hc : f c.finished k c.mem with
      | mk m call =>
          cases call with
          | yield k' => rw [step_of_yield hl hc, hb]
          | await j k' => exact absurd (congrArg Prod.snd hc) (hf _ _ _ _ _)
          | ret => rw [step_of_ret_alone hl hb hc, hb]

/-- No task is ever waited for by two others. -/
def Singly (f : Script σ κ) (c : Turns σ κ) : Prop :=
  ∀ n j, (((step f)^[n] c).woken j).length ≤ 1

theorem Singly.step (h : Singly f c) : Singly f (step f c) := by
  intro n j
  rw [← Function.iterate_succ_apply]
  exact h (n + 1) j

theorem singly_of_yieldsOnly (hf : f.YieldsOnly) (hb : c.blocked = []) : Singly f c := by
  intro n j
  have hn : ((Turns.step f)^[n] c).blocked = [] :=
    Function.Iterate.rec (fun c : Turns σ κ => c.blocked = []) hb (fun _ => blocked_step hf) n
  simp [woken, hn]

/-! ### Spinning -/

/-- A task at `k` yields with nothing done. -/
def Spins (f : Script σ κ) (c : Turns σ κ) (k : κ) : Prop :=
  f c.finished k c.mem = (c.mem, .yield k)

/-- Spinning goes on when the tasks have only changed places. -/
theorem spins_congr {line : List (ℕ × κ)} (h : line.Perm c.line) :
    Spins f { c with line := line } k ↔ Spins f c k := by
  have hfin : finished { c with line := line } = c.finished := by
    funext j
    simp only [finished, (h.map Prod.fst).mem_iff]
  rw [Spins, Spins, hfin]

/-- **Spinning tasks make way**: those behind them get their turns, with nothing changed. -/
theorem spin {xs ys : List (ℕ × κ)} (hl : c.line = xs ++ ys) (hs : ∀ x ∈ xs, Spins f c x.2) :
    (step f)^[xs.length] c = { c with line := ys ++ xs } := by
  induction xs generalizing c ys with
  | nil =>
      rw [List.nil_append] at hl
      simp [← hl]
  | cons x xs ih =>
      obtain ⟨i, k⟩ := x
      rw [List.cons_append] at hl
      have hstep : step f c = { c with line := xs ++ (ys ++ [(i, k)]) } := by
        rw [step_of_yield hl (hs _ List.mem_cons_self), List.append_assoc]
      have hperm : (xs ++ (ys ++ [(i, k)])).Perm c.line := by
        rw [hl, ← List.append_assoc]
        exact List.perm_append_singleton _ _
      have hrest := ih (c := { c with line := xs ++ (ys ++ [(i, k)]) }) rfl fun y hy =>
        (spins_congr hperm).mpr (hs y (List.mem_cons_of_mem _ hy))
      rw [List.length_cons, Function.iterate_succ_apply, hstep, hrest, List.append_assoc]
      rfl

/-- **Livelock**: when every task in the line spins, nothing changes any more. -/
theorem spinning (hs : ∀ x ∈ c.line, Spins f c x.2) (n : ℕ) :
    ∃ line, line.Perm c.line ∧ (step f)^[n] c = { c with line := line } := by
  induction n with
  | zero => exact ⟨c.line, .refl _, rfl⟩
  | succ n ih =>
      obtain ⟨line, hperm, hn⟩ := ih
      rw [Function.iterate_succ_apply', hn]
      cases line with
      | nil => exact ⟨[], hperm, step_of_nil rfl⟩
      | cons x rest =>
          have hx : Spins f { c with line := x :: rest } x.2 :=
            (spins_congr hperm).mpr (hs x (hperm.mem_iff.mp List.mem_cons_self))
          exact ⟨rest ++ [x], (List.perm_append_singleton x rest).trans hperm, step_of_yield rfl hx⟩

/-- So tasks that all spin were not, and will not be, through. -/
theorem line_ne_nil {N : ℕ} (hl : ((step f)^[N] c).line ≠ [])
    (hs : ∀ x ∈ ((step f)^[N] c).line, Spins f ((step f)^[N] c) x.2) (n : ℕ) :
    ((step f)^[n] c).line ≠ [] := by
  intro hnil
  rcases le_total n N with h | h
  · obtain ⟨d, rfl⟩ := Nat.exists_eq_add_of_le' h
    rw [Function.iterate_add_apply, Function.iterate_fixed (step_of_nil hnil)] at hl
    exact hl hnil
  · obtain ⟨d, rfl⟩ := Nat.exists_eq_add_of_le' h
    obtain ⟨line, hperm, hd⟩ := spinning hs d
    rw [Function.iterate_add_apply, hd] at hnil
    subst hnil
    exact hl hperm.nil_eq.symm

/-- A task that spins is followed by one that does not, unless all do. -/
theorem exists_first {xs : List (ℕ × κ)} (h : ∃ x ∈ xs, ¬ Spins f c x.2) :
    ∃ ys x zs, xs = ys ++ x :: zs ∧ (∀ y ∈ ys, Spins f c y.2) ∧ ¬ Spins f c x.2 := by
  induction xs with
  | nil => simp at h
  | cons x xs ih =>
      by_cases hx : Spins f c x.2
      · obtain ⟨y, hy, hn⟩ := h
        have hy : y ∈ xs := (List.mem_cons.mp hy).resolve_left fun e => hn (e ▸ hx)
        obtain ⟨ys, z, zs, rfl, hs, hz⟩ := ih ⟨y, hy, hn⟩
        refine ⟨x :: ys, z, zs, rfl, ?_, hz⟩
        intro w hw
        rcases List.mem_cons.mp hw with rfl | hw
        · exact hx
        · exact hs w hw
      · exact ⟨[], x, xs, rfl, by simp, hx⟩

/-- **All that are left spin**, sooner or later, when a turn that does not spin decreases `μ`, which
does not depend on the order of the line. -/
theorem exists_spinning {I : Turns σ κ → Prop} (μ : Turns σ κ → ℕ)
    (hstep : ∀ c, I c → I (step f c))
    (hμ : ∀ c line, line.Perm c.line → μ { c with line := line } = μ c)
    (hmove : ∀ c i k rest, I c → c.line = (i, k) :: rest → ¬ Spins f c k → μ (step f c) < μ c)
    (hc : I c) : ∃ n, ∀ x ∈ ((step f)^[n] c).line, Spins f ((step f)^[n] c) x.2 := by
  induction hm : μ c using Nat.strong_induction_on generalizing c with
  | _ m ih =>
      by_cases hall : ∀ x ∈ c.line, Spins f c x.2
      · exact ⟨0, hall⟩
      · push Not at hall
        obtain ⟨xs, ⟨i, k⟩, ys, hxs, hs, hn⟩ := exists_first hall
        have hspin := spin hxs hs
        have hperm : ((i, k) :: ys ++ xs).Perm c.line := hxs ▸ List.perm_append_comm
        have hI : I { c with line := (i, k) :: ys ++ xs } :=
          hspin ▸ Function.Iterate.rec I hc hstep xs.length
        have hlt := hmove _ i k (ys ++ xs) hI rfl fun h => hn ((spins_congr hperm).mp h)
        rw [hμ c _ hperm, hm] at hlt
        obtain ⟨n, hend⟩ := ih _ hlt (hstep _ hI) rfl
        have hiter : (step f)^[n + 1 + xs.length] c =
            (step f)^[n] (step f { c with line := (i, k) :: ys ++ xs }) := by
          rw [Function.iterate_add_apply, hspin, Function.iterate_succ_apply]
        exact ⟨n + 1 + xs.length, hiter ▸ hend⟩

/-! ### Code that only yields -/

/-- The line after a call of its head `i`. -/
def settle (i : ℕ) (rest : List (ℕ × κ)) : Call κ → List (ℕ × κ)
  | .yield k => rest ++ [(i, k)]
  | .await _ _ | .ret => rest

theorem step_eq_settle (hf : f.YieldsOnly) (hb : c.blocked = []) (h : c.line = (i, k) :: rest) :
    step f c = { mem := (f c.finished k c.mem).1
                 line := settle i rest (f c.finished k c.mem).2
                 blocked := [] } := by
  cases hc : f c.finished k c.mem with
  | mk m call =>
      cases call with
      | yield k' => rw [step_of_yield h hc, hb]; rfl
      | await j k' => exact absurd (congrArg Prod.snd hc) (hf _ _ _ _ _)
      | ret => rw [step_of_ret_alone h hb hc, hb]; rfl

theorem finished_iff (hb : c.blocked = []) (h : c.line = (i, k) :: rest) (j : ℕ) :
    c.finished j = true ↔ j ≠ i ∧ j ∉ rest.map Prod.fst := by
  simp [finished, hb, h]

section YieldsOnly

variable {I : σ → List (ℕ × κ) → Prop}

/-- `I` is kept by the turn of the head of the line; `fin` are the tasks that are not in it. -/
def Kept (f : Script σ κ) (I : σ → List (ℕ × κ) → Prop) : Prop :=
  ∀ m i k rest (fin : ℕ → Bool), (∀ j, fin j = true ↔ j ≠ i ∧ j ∉ rest.map Prod.fst) →
    I m ((i, k) :: rest) → I (f fin k m).1 (settle i rest (f fin k m).2)

theorem step_kept (hf : f.YieldsOnly) (hI : Kept f I) (c : Turns σ κ)
    (h : c.blocked = [] ∧ I c.mem c.line) :
    (step f c).blocked = [] ∧ I (step f c).mem (step f c).line := by
  obtain ⟨hb, hc⟩ := h
  refine ⟨blocked_step hf hb, ?_⟩
  cases hl : c.line with
  | nil => rwa [step_of_nil hl]
  | cons x rest =>
      obtain ⟨i, k⟩ := x
      rw [step_eq_settle hf hb hl]
      exact hI c.mem i k rest c.finished (finished_iff hb hl) (hl ▸ hc)

/-- **The invariant rule.** -/
theorem invariant (hf : f.YieldsOnly) (hI : Kept f I) (hb : c.blocked = []) (hc : I c.mem c.line)
    (n : ℕ) : ((step f)^[n] c).blocked = [] ∧ I ((step f)^[n] c).mem ((step f)^[n] c).line :=
  Function.Iterate.rec (fun c : Turns σ κ => c.blocked = [] ∧ I c.mem c.line) ⟨hb, hc⟩
    (step_kept hf hI) n

/-- **The termination rule.**  A turn that changes something decreases `μ`, so that sooner or later
no task in the line changes anything. -/
theorem exists_all_spin (hf : f.YieldsOnly) (hI : Kept f I) (μ : σ → List (ℕ × κ) → ℕ)
    (hμ : ∀ m l l', l.Perm l' → μ m l = μ m l')
    (hmove : ∀ m i k rest (fin : ℕ → Bool), (∀ j, fin j = true ↔ j ≠ i ∧ j ∉ rest.map Prod.fst) →
      I m ((i, k) :: rest) → f fin k m ≠ (m, .yield k) →
      μ (f fin k m).1 (settle i rest (f fin k m).2) < μ m ((i, k) :: rest))
    (hb : c.blocked = []) (hc : I c.mem c.line) :
    ∃ n d, (step f)^[n] c = d ∧ d.blocked = [] ∧ I d.mem d.line ∧ ∀ x ∈ d.line, Spins f d x.2 := by
  obtain ⟨n, hn⟩ := exists_spinning (fun c => μ c.mem c.line) (step_kept hf hI)
    (fun c line h => hμ c.mem line c.line h)
    (fun c i k rest h hl hs => by
      rw [step_eq_settle hf h.1 hl, hl]
      exact hmove c.mem i k rest c.finished (finished_iff h.1 hl) (hl ▸ h.2) hs)
    (c := c) ⟨hb, hc⟩
  obtain ⟨hb', hI'⟩ := invariant hf hI hb hc n
  exact ⟨n, _, rfl, hb', hI', hn⟩

/-- What is left to do for a task that stops at the call. -/
def callWeight (weight : κ → ℕ) (call : Call κ) : ℕ := (call.place.map weight).getD 0

theorem sum_settle_le (weight : κ → ℕ) (i : ℕ) (rest : List (ℕ × κ)) (call : Call κ) :
    ((settle i rest call).map fun x => weight x.2).sum ≤
      (rest.map fun x => weight x.2).sum + callWeight weight call := by
  cases call with
  | yield k => simp [settle, callWeight, Call.place]
  | await j k => simp [settle]
  | ret => simp [settle]

/-- The same rule, where `Stuck` says which tasks spin, and what is left to do is the sum over the
tasks, of what their places say, and over the memory. -/
theorem exists_all_stuck (hf : f.YieldsOnly) (hI : Kept f I) (weight : κ → ℕ) (φ : σ → ℕ)
    {Stuck : (ℕ → Bool) → σ → κ → Prop}
    (hstuck : ∀ fin m k, Stuck fin m k → f fin k m = (m, .yield k))
    (hlt : ∀ fin m i k rest, I m ((i, k) :: rest) → ¬ Stuck fin m k →
      callWeight weight (f fin k m).2 + φ (f fin k m).1 < weight k + φ m)
    (hb : c.blocked = []) (hc : I c.mem c.line) :
    ∃ n d, (step f)^[n] c = d ∧ d.blocked = [] ∧ I d.mem d.line ∧
      ∀ x ∈ d.line, Stuck d.finished d.mem x.2 := by
  have hmove : ∀ m i k rest (fin : ℕ → Bool), (∀ j, fin j = true ↔ j ≠ i ∧ j ∉ rest.map Prod.fst) →
      I m ((i, k) :: rest) → f fin k m ≠ (m, .yield k) →
      ((settle i rest (f fin k m).2).map fun x => weight x.2).sum + φ (f fin k m).1 <
        (((i, k) :: rest).map fun x => weight x.2).sum + φ m := by
    intro m i k rest fin _ hm hs
    have hle := sum_settle_le weight i rest (f fin k m).2
    have := hlt fin m i k rest hm fun h => hs (hstuck fin m k h)
    simp only [List.map_cons, List.sum_cons]
    omega
  obtain ⟨n, d, hn, hblocked, hd, hspin⟩ := exists_all_spin hf hI
    (fun m line => (line.map fun x => weight x.2).sum + φ m)
    (fun m l l' hp => by rw [(hp.map _).sum_eq]) hmove hb hc
  refine ⟨n, d, hn, hblocked, hd, fun x hx => ?_⟩
  -- it gets its turn, and what is left to do stays the same when nothing is done
  obtain ⟨xs, ys, hxs⟩ := List.append_of_mem hx
  have hturn := spin hxs fun y hy => hspin y (hxs ▸ List.mem_append_left _ hy)
  obtain ⟨-, hhead⟩ := invariant hf hI hblocked hd xs.length
  rw [hturn] at hhead
  by_contra hs
  have := hlt _ _ _ _ _ hhead hs
  rw [show f d.finished x.2 d.mem = (d.mem, .yield x.2) from hspin x hx] at this
  exact lt_irrefl _ this

/-- A turn takes its task from one place to another; `g` is what is of interest of a task. -/
theorem perm_map_settle {β : Type} (g : ℕ × κ → β) {A B : List β} {call : Call κ}
    (h : (((i, k) :: rest).map g).Perm (A ++ g (i, k) :: B)) (hc : ∀ j k', call ≠ .await j k') :
    ((settle i rest call).map g).Perm (A ++ (call.place.map fun k => g (i, k)).toList ++ B) := by
  have hrest : (rest.map g).Perm (A ++ B) := (h.trans List.perm_middle).cons_inv
  cases call with
  | yield k' =>
      rw [settle, List.map_append, List.append_assoc]
      refine (List.perm_append_comm.trans (hrest.cons (g (i, k')))).trans ?_
      exact List.perm_middle.symm
  | await j k' => exact absurd rfl (hc j k')
  | ret =>
      simpa [settle, Call.place] using hrest

theorem perm_settle {A B : List (ℕ × κ)} {call : Call κ}
    (h : ((i, k) :: rest).Perm (A ++ (i, k) :: B)) (hc : ∀ j k', call ≠ .await j k') :
    (settle i rest call).Perm (A ++ (call.place.map fun k => (i, k)).toList ++ B) := by
  simpa using perm_map_settle id (by simpa using h) hc

theorem perm_settle_snd {A B : List κ} {call : Call κ}
    (h : (((i, k) :: rest).map Prod.snd).Perm (A ++ k :: B)) (hc : ∀ j k', call ≠ .await j k') :
    ((settle i rest call).map Prod.snd).Perm (A ++ call.place.toList ++ B) := by
  simpa using perm_map_settle Prod.snd h hc

end YieldsOnly

/-! ### Tasks that wait for each other -/

/-- The tasks that have not finished. -/
def numbers (c : Turns σ κ) : List ℕ := c.line.map Prod.fst ++ c.blocked.map Prod.fst

theorem finished_iff_numbers {j : ℕ} : c.finished j = true ↔ j ∉ c.numbers := by
  simp [finished, numbers]

theorem finished_congr {d : Turns σ κ} (h : d.numbers.Perm c.numbers) :
    d.finished = c.finished := by
  funext j
  rw [Bool.eq_iff_iff, finished_iff_numbers, finished_iff_numbers, h.mem_iff]

/-- No task is in two places, and none waits for a task that has finished. -/
structure Sound (c : Turns σ κ) : Prop where
  nodup : c.numbers.Nodup
  waits : ∀ x ∈ c.blocked, c.finished x.2.1 = false

namespace Sound

theorem not_mem_blocked (h : c.Sound) (hl : c.line = (i, k) :: rest) :
    ∀ z ∈ c.blocked, z.1 ≠ i := by
  have hnd := h.nodup
  rw [numbers, hl, List.map_cons, List.cons_append, List.nodup_cons] at hnd
  intro z hz e
  exact hnd.1 (List.mem_append_right _ (e ▸ List.mem_map_of_mem hz))

/-- A call other than the return finishes nobody. -/
theorem numbers_step (h : c.Sound) (hl : c.line = (i, k) :: rest)
    (hcall : (f c.finished k c.mem).2 ≠ .ret) : (step f c).numbers.Perm c.numbers := by
  cases hc : f c.finished k c.mem with
  | mk m call =>
      cases call with
      | yield k' =>
          rw [step_of_yield hl hc, numbers, numbers, hl, List.map_append]
          exact (List.perm_append_singleton i _).append_right _
      | await j k' =>
          by_cases hj : c.finished j = true
          · rw [step_of_await hl hc hj, numbers, numbers, hl]
            rfl
          · have hp : (enter (i, j, k') c.blocked).Perm ((i, j, k') :: c.blocked) :=
              perm_enter (h.not_mem_blocked hl)
            rw [step_of_block hl hc (by simpa using hj), numbers, numbers, hl]
            exact ((hp.map Prod.fst).append_left _).trans List.perm_middle
      | ret => exact absurd (congrArg Prod.snd hc) hcall

theorem numbers_ret {m : σ} (hl : c.line = (i, k) :: rest)
    (hc : f c.finished k c.mem = (m, .ret)) : c.numbers.Perm (i :: (step f c).numbers) := by
  rw [step_of_ret hl hc, numbers, numbers, hl, List.map_append, List.append_assoc]
  refine (List.Perm.append_left _ ?_).cons i
  have hne : (c.blocked.filter fun x => x.2.1 ≠ i) =
      c.blocked.filter fun x => !decide (x.2.1 = i) := by simp
  have hwoken : (c.woken i).map Prod.fst =
      (c.blocked.filter fun x => decide (x.2.1 = i)).map Prod.fst := by
    rw [woken, List.map_map]
    rfl
  rw [hwoken, hne, ← List.map_append]
  exact ((List.filter_append_perm _ c.blocked).map Prod.fst).symm

theorem finished_step (h : c.Sound) (hl : c.line = (i, k) :: rest)
    (hcall : (f c.finished k c.mem).2 ≠ .ret) : (step f c).finished = c.finished :=
  finished_congr (h.numbers_step hl hcall)

/-- The return finishes the task that makes it. -/
theorem finished_ret (h : c.Sound) {m : σ} (hl : c.line = (i, k) :: rest)
    (hc : f c.finished k c.mem = (m, .ret)) (j : ℕ) :
    (step f c).finished j = true ↔ c.finished j = true ∨ j = i := by
  have hp := numbers_ret hl hc
  have hi := (List.nodup_cons.mp (hp.nodup_iff.mp h.nodup)).1
  rw [finished_iff_numbers, finished_iff_numbers, hp.mem_iff, List.mem_cons, not_or]
  by_cases e : j = i
  · simp [e, hi]
  · simp [e]

theorem step (h : c.Sound) : (step f c).Sound := by
  cases hl : c.line with
  | nil => rwa [step_of_nil hl]
  | cons x rest =>
      obtain ⟨i, k⟩ := x
      cases hc : f c.finished k c.mem with
      | mk m call =>
          cases call with
          | yield k' =>
              have hcall : (f c.finished k c.mem).2 ≠ .ret := by simp [hc]
              refine ⟨(h.numbers_step hl hcall).nodup_iff.mpr h.nodup, ?_⟩
              rw [h.finished_step hl hcall, step_of_yield hl hc]
              exact h.waits
          | await j k' =>
              have hcall : (f c.finished k c.mem).2 ≠ .ret := by simp [hc]
              refine ⟨(h.numbers_step hl hcall).nodup_iff.mpr h.nodup, ?_⟩
              rw [h.finished_step hl hcall]
              by_cases hj : c.finished j = true
              · rw [step_of_await hl hc hj]
                exact h.waits
              · have hj : c.finished j = false := by simpa using hj
                rw [step_of_block hl hc hj]
                intro x hx
                rcases (mem_enter (h.not_mem_blocked hl)).mp hx with rfl | hx
                · exact hj
                · exact h.waits x hx
          | ret =>
              refine ⟨(List.nodup_cons.mp ((numbers_ret hl hc).nodup_iff.mp h.nodup)).2, ?_⟩
              intro x hx
              rw [← Bool.not_eq_true, h.finished_ret hl hc, not_or]
              rw [step_of_ret hl hc] at hx
              obtain ⟨hx, hne⟩ := List.mem_filter.mp hx
              exact ⟨by simp [h.waits x hx], of_decide_eq_true hne⟩

end Sound

end Turns

end Support
