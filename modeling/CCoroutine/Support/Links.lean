import Mathlib.Order.Preorder.Finite
import Mathlib.Order.Defs.Unbundled

/-!
# Support — Links

Graphs in which a node has at most one outgoing link, `next : α → Option α`.  `follow next n a` is
the node `n` links away from `a`.

A finite set of nodes that no link leaves, and in which every node has a link, runs into a cycle
from each of its nodes (`exists_onCycle`); links that go down a strict order have no cycle
(`not_onCycle`).  A chain of links ends or runs into a cycle (`RunsIntoCycle`, `exists_end`), and
when links are added, the chains that newly run into a cycle go through one of them
(`RunsIntoCycle.of_new`).
-/

namespace Support

variable {α : Type} {next : α → Option α}

/-- The node `n` links away from `a`. -/
def follow (next : α → Option α) : ℕ → α → Option α
  | 0, a => some a
  | n + 1, a => (next a).bind (follow next n)

/-- Following the links from `a` leads back to `a`. -/
def OnCycle (next : α → Option α) (a : α) : Prop := ∃ n, follow next (n + 1) a = some a

theorem follow_add (m n : ℕ) (a : α) :
    follow next (m + n) a = (follow next m a).bind (follow next n) := by
  induction m generalizing a with
  | zero => simp [follow]
  | succ m ih =>
      rw [Nat.succ_add, follow, follow, Option.bind_assoc]
      exact Option.bind_congr fun b _ => ih b

/-- A node on a cycle has a link. -/
theorem OnCycle.next_ne_none {a : α} (h : OnCycle next a) : next a ≠ none := by
  obtain ⟨n, h⟩ := h
  intro e
  rw [follow, e] at h
  cases h

section Closed

variable {P : α → Prop} (hP : ∀ a, P a → ∃ b, next a = some b ∧ P b)
include hP

/-- The links stay inside a set that no link leaves. -/
theorem exists_follow {a : α} (ha : P a) (n : ℕ) : ∃ b, follow next n a = some b ∧ P b := by
  induction n generalizing a with
  | zero => exact ⟨a, rfl, ha⟩
  | succ n ih =>
      obtain ⟨b, hb, hPb⟩ := hP a ha
      obtain ⟨c, hc, hPc⟩ := ih hPb
      exact ⟨c, by rw [follow, hb]; exact hc, hPc⟩

/-- **A finite set that no link leaves has a cycle**, ahead of each of its nodes. -/
theorem exists_onCycle (hfin : {a | P a}.Finite) {a : α} (ha : P a) :
    ∃ n b, follow next n a = some b ∧ P b ∧ OnCycle next b := by
  choose b hb hPb using exists_follow hP ha
  obtain ⟨m, n, hmn, he⟩ := hfin.exists_lt_map_eq_of_forall_mem hPb
  refine ⟨m, b m, hb m, hPb m, n - m - 1, ?_⟩
  -- `n` links from `a` are `m` links to `b m` and `n - m` from there
  have hsplit : follow next (m + (n - m)) a = (follow next m a).bind (follow next (n - m)) :=
    follow_add m (n - m) a
  rw [Nat.add_sub_cancel' hmn.le, hb m, hb n, Option.bind_some] at hsplit
  rw [Nat.sub_add_cancel (Nat.sub_pos_of_lt hmn), ← hsplit, he]

end Closed

/-! ### Chains that run into a cycle -/

/-- The chain of links from `a` runs into a cycle. -/
def RunsIntoCycle (next : α → Option α) (a : α) : Prop :=
  ∃ n b, follow next n a = some b ∧ OnCycle next b

/-- What is ahead on a cycle is on it. -/
theorem OnCycle.follow {a b : α} {m : ℕ} (h : OnCycle next a) (hb : follow next m a = some b) :
    OnCycle next b := by
  obtain ⟨n, h⟩ := h
  refine ⟨n, ?_⟩
  -- `m` links and a turn around the cycle, in either order
  have hcomm : Support.follow next (m + (n + 1)) a = Support.follow next (n + 1 + m) a := by
    rw [Nat.add_comm]
  rw [follow_add, follow_add, hb, h] at hcomm
  exact hcomm.trans hb

theorem runsIntoCycle_iff {a b : α} (h : next a = some b) :
    RunsIntoCycle next a ↔ RunsIntoCycle next b := by
  constructor
  · rintro ⟨n, c, hc, hcyc⟩
    cases n with
    | zero =>
        obtain rfl : a = c := Option.some.inj hc
        exact ⟨0, b, rfl, hcyc.follow (m := 1) (by simp [follow, h])⟩
    | succ n => exact ⟨n, c, by simpa [follow, h] using hc, hcyc⟩
  · rintro ⟨n, c, hc, hcyc⟩
    exact ⟨n + 1, c, by simpa [follow, h] using hc, hcyc⟩

/-- A chain that runs into a cycle does not end. -/
theorem RunsIntoCycle.exists_next {a : α} (h : RunsIntoCycle next a) :
    ∃ b, next a = some b ∧ RunsIntoCycle next b := by
  have hne : next a ≠ none := by
    obtain ⟨n, c, hc, hcyc⟩ := id h
    cases n with
    | zero =>
        obtain rfl : a = c := Option.some.inj hc
        exact hcyc.next_ne_none
    | succ n =>
        intro e
        rw [follow, e] at hc
        cases hc
  obtain ⟨b, hb⟩ := Option.ne_none_iff_exists'.mp hne
  exact ⟨b, hb, (runsIntoCycle_iff hb).mp h⟩

theorem RunsIntoCycle.follow {a b : α} (h : RunsIntoCycle next a) {n : ℕ}
    (hb : Support.follow next n a = some b) : RunsIntoCycle next b := by
  induction n generalizing a with
  | zero => exact Option.some.inj hb ▸ h
  | succ n ih =>
      obtain ⟨d, hd, hcyc⟩ := h.exists_next
      exact ih hcyc (by simpa [Support.follow, hd] using hb)

/-- **A chain through finitely many nodes ends or runs into a cycle.** -/
theorem exists_end {a : α} (hfin : {x | ∃ n, follow next n a = some x}.Finite)
    (h : ¬ RunsIntoCycle next a) : ∃ n b, follow next n a = some b ∧ next b = none := by
  by_contra hend
  have hclosed : ∀ x, (∃ n, follow next n a = some x) →
      ∃ y, next x = some y ∧ ∃ n, follow next n a = some y := by
    rintro x ⟨n, hn⟩
    obtain ⟨y, hy⟩ := Option.ne_none_iff_exists'.mp fun e => hend ⟨n, x, hn, e⟩
    exact ⟨y, hy, n + 1, by rw [follow_add, hn]; simp [follow, hy]⟩
  obtain ⟨n, b, hb, -, hcyc⟩ := exists_onCycle hclosed hfin ⟨0, rfl⟩
  exact h ⟨n, b, hb, hcyc⟩

/-- A chain stays inside a set that no link leaves. -/
theorem follow_mem {P : α → Prop} (hP : ∀ a, P a → ∀ b, next a = some b → P b) {a b : α} {n : ℕ}
    (ha : P a) (h : follow next n a = some b) : P b := by
  induction n generalizing a with
  | zero => exact Option.some.inj h ▸ ha
  | succ n ih =>
      rw [follow] at h
      obtain ⟨d, hd, hb⟩ := Option.bind_eq_some_iff.mp h
      exact ih (hP a ha d hd) hb

section Change

variable {next' : α → Option α}

theorem follow_mono (h : ∀ a b, next a = some b → next' a = some b) {a b : α} {n : ℕ}
    (hn : follow next n a = some b) : follow next' n a = some b := by
  induction n generalizing a with
  | zero => exact hn
  | succ n ih =>
      rw [follow] at hn ⊢
      obtain ⟨d, hd, hb⟩ := Option.bind_eq_some_iff.mp hn
      rw [h a d hd]
      exact ih hb

/-- Chains inside a set on which the links have not changed are the same. -/
theorem follow_congr {P : α → Prop}
    (hP : ∀ a, P a → next' a = next a ∧ ∀ b, next a = some b → P b) {a : α} (ha : P a) (n : ℕ) :
    follow next' n a = follow next n a := by
  induction n generalizing a with
  | zero => rfl
  | succ n ih =>
      obtain ⟨he, hb⟩ := hP a ha
      rw [follow, follow, he]
      exact Option.bind_congr fun b hab => ih (hb b hab)

/-- When the links of the nodes that run into a cycle do not change, they still do. -/
theorem RunsIntoCycle.congr {P : α → Prop}
    (hP : ∀ a, P a → RunsIntoCycle next a → next' a = next a ∧ ∀ b, next a = some b → P b) {a : α}
    (ha : P a) (h : RunsIntoCycle next a) : RunsIntoCycle next' a := by
  let Q := fun x => P x ∧ RunsIntoCycle next x
  have hQ : ∀ x, Q x → next' x = next x ∧ ∀ y, next x = some y → Q y := fun x hx =>
    ⟨(hP x hx.1 hx.2).1, fun y hy => ⟨(hP x hx.1 hx.2).2 y hy, (runsIntoCycle_iff hy).mp hx.2⟩⟩
  obtain ⟨n, b, hb, m, hm⟩ := id h
  have hQb : Q b := follow_mem (fun x hx => (hQ x hx).2) ⟨ha, h⟩ hb
  exact ⟨n, b, (follow_congr hQ ⟨ha, h⟩ n).trans hb, m, (follow_congr hQ hQb (m + 1)).trans hm⟩

variable {P C : α → Prop}
  (hnew : ∀ a b, P a → next' a = some b → P b ∧ (next a = some b ∨ C a))
include hnew

/-- When the links of the nodes in `C` may be new, a chain consists of old links, or it comes to a
node in `C` by old links. -/
theorem follow_new {a b : α} (ha : P a) {n : ℕ} (h : follow next' n a = some b) :
    P b ∧ (follow next n a = some b ∨
      ∃ m c, C c ∧ follow next m a = some c ∧ follow next' m a = some c) := by
  induction n generalizing a with
  | zero =>
      obtain rfl : a = b := Option.some.inj h
      exact ⟨ha, .inl h⟩
  | succ n ih =>
      rw [follow] at h
      obtain ⟨d, hd, hb⟩ := Option.bind_eq_some_iff.mp h
      obtain ⟨hPd, hold⟩ := hnew a d ha hd
      obtain ⟨hPb, hn⟩ := ih hPd hb
      refine ⟨hPb, ?_⟩
      rcases hold with hold | hC
      · rcases hn with hn | ⟨m, c, hC, hm, hm'⟩
        · exact .inl (by simpa [follow, hold] using hn)
        · exact .inr ⟨m + 1, c, hC, by simpa [follow, hold] using hm,
            by simpa [follow, hd] using hm'⟩
      · exact .inr ⟨0, a, hC, rfl, rfl⟩

/-- **A new link closes a cycle, or leads to one.**  A chain that runs into a cycle did before, or
it comes by old links to a node with a new link, whose chain runs into a cycle. -/
theorem RunsIntoCycle.of_new {a : α} (ha : P a) (h : RunsIntoCycle next' a) :
    RunsIntoCycle next a ∨
      ∃ n c, C c ∧ Support.follow next n a = some c ∧ P c ∧ RunsIntoCycle next' c := by
  have through : ∀ n c, C c → Support.follow next n a = some c →
      Support.follow next' n a = some c →
      ∃ n c, C c ∧ Support.follow next n a = some c ∧ P c ∧ RunsIntoCycle next' c :=
    fun n c hC hn hn' => ⟨n, c, hC, hn, (follow_new hnew ha hn').1, h.follow hn'⟩
  obtain ⟨n, b, hb, m, hm⟩ := id h
  obtain ⟨hPb, hpath | ⟨i, c, hC, hi, hi'⟩⟩ := follow_new hnew ha hb
  · obtain ⟨-, hcycle | ⟨i, c, hC, hi, hi'⟩⟩ := follow_new hnew hPb hm
    · exact .inl ⟨n, b, hpath, m, hcycle⟩
    · exact .inr (through (n + i) c hC (by rw [follow_add, hpath, Option.bind_some, hi])
        (by rw [follow_add, hb, Option.bind_some, hi']))
  · exact .inr (through i c hC hi hi')

end Change

/-- **Links that go down a strict order have no cycle.** -/
theorem not_onCycle {β : Type} {r : β → β → Prop} [IsStrictOrder β r] {f : α → β} {P : α → Prop}
    (hr : ∀ a b, P a → next a = some b → P b ∧ r (f b) (f a)) {a : α} (ha : P a) :
    ¬ OnCycle next a := by
  have down : ∀ n a b, P a → follow next (n + 1) a = some b → r (f b) (f a) := by
    intro n
    induction n with
    | zero =>
        intro a b ha h
        simp only [follow, Option.bind_fun_some] at h
        exact (hr a b ha h).2
    | succ n ih =>
        intro a b ha h
        rw [follow] at h
        obtain ⟨c, hc, hb⟩ := Option.bind_eq_some_iff.mp h
        obtain ⟨hPc, hlt⟩ := hr a c ha hc
        exact IsTrans.trans _ _ _ (ih c b hPc hb) hlt
  rintro ⟨n, h⟩
  exact irrefl (f a) (down n a a ha h)

end Support
