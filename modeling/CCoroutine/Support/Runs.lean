import Mathlib.Data.ENat.Basic

/-!
# Support — Runs

Runs of a labelled transition relation `T`: the finite run `Steps T s as s'` through the labels
`as`, and `Run T s₀`, a finite or infinite run from `s₀` with its states and labels indexed by
position.  A property `T` preserves is carried along both (`Steps.invariant`, `Run.invariant`,
`Run.stable`).

`exec` runs a list of labels on a partial function that computes `T`; what it returns is reached
(`reachable_of_exec`), and it is a run (`Run.ofExec`).
-/

namespace Support

variable {σ α : Type}

/-- `s` goes to `s'` through the labels `as`, in order. -/
inductive Steps (T : σ → α → σ → Prop) : σ → List α → σ → Prop where
  | refl (s : σ) : Steps T s [] s
  | more {s s₁ s' : σ} {a : α} {as : List α}
      (h : T s a s₁) (t : Steps T s₁ as s') : Steps T s (a :: as) s'

namespace Steps

variable {T : σ → α → σ → Prop}

theorem one {s s' : σ} {a : α} (h : T s a s') : Steps T s [a] s' :=
  .more h (.refl _)

theorem trans {s s₁ s' : σ} {as bs : List α} (h₁ : Steps T s as s₁) (h₂ : Steps T s₁ bs s') :
    Steps T s (as ++ bs) s' := by
  induction h₁ with
  | refl => exact h₂
  | more h _ ih => exact .more h (ih h₂)

/-- **The invariant rule.**  What one step preserves, a run preserves. -/
theorem invariant {P : σ → Prop} (hP : ∀ s a s', P s → T s a s' → P s') {s s' : σ}
    {as : List α} (h : Steps T s as s') : P s → P s' := by
  induction h with
  | refl => exact id
  | more h _ ih => exact fun hs => ih (hP _ _ _ hs h)

end Steps

/-- `s` is reached from `s₀`. -/
def Reachable (T : σ → α → σ → Prop) (s₀ s : σ) : Prop := ∃ as, Steps T s₀ as s

theorem Reachable.next {T : σ → α → σ → Prop} {s₀ s s' : σ} {a : α} (h : Reachable T s₀ s)
    (hs : T s a s') : Reachable T s₀ s' := by
  obtain ⟨as, h⟩ := h
  exact ⟨as ++ [a], h.trans (.one hs)⟩

/-- **The invariant rule, at the reachable states.** -/
theorem Reachable.invariant {T : σ → α → σ → Prop} {P : σ → Prop} {s₀ s : σ} (h₀ : P s₀)
    (hP : ∀ s a s', P s → T s a s' → P s') (h : Reachable T s₀ s) : P s := by
  obtain ⟨as, h⟩ := h
  exact h.invariant hP h₀

/-! ### Executing a list of labels -/

theorem toOption_eq_some {ε β : Type} {x : Except ε β} {b : β} :
    x.toOption = some b ↔ x = .ok b := by
  cases x with
  | error e => exact ⟨nofun, nofun⟩
  | ok a => exact ⟨fun h => congrArg _ (Option.some.inj h), fun h => congrArg _ (Except.ok.inj h)⟩

/-- The state after the labels, when each of them is enabled. -/
def exec (f : σ → α → Option σ) : σ → List α → Option σ
  | s, [] => some s
  | s, a :: as => (f s a).bind fun s' => exec f s' as

theorem steps_of_exec {T : σ → α → σ → Prop} {f : σ → α → Option σ}
    (hf : ∀ s a s', f s a = some s' → T s a s') {as : List α} {s s' : σ}
    (h : exec f s as = some s') : Steps T s as s' := by
  induction as generalizing s with
  | nil => cases h; exact .refl _
  | cons a as ih =>
      obtain ⟨s₁, h₁, h₂⟩ := Option.bind_eq_some_iff.mp h
      exact .more (hf s a s₁ h₁) (ih h₂)

theorem reachable_of_exec {T : σ → α → σ → Prop} {f : σ → α → Option σ}
    (hf : ∀ s a s', f s a = some s' → T s a s') {as : List α} {s : σ}
    (h : (exec f s as).isSome = true) : Reachable T s ((exec f s as).getD s) := by
  obtain ⟨s', hs⟩ := Option.isSome_iff_exists.mp h
  rw [hs]
  exact ⟨as, steps_of_exec hf hs⟩

/-- `exec`, one label later. -/
theorem exec_take_succ {f : σ → α → Option σ} {as : List α} {s : σ} {i : ℕ} {a : α}
    (ha : as[i]? = some a) :
    exec f s (as.take (i + 1)) = (exec f s (as.take i)).bind fun s' => f s' a := by
  induction as generalizing s i with
  | nil => cases ha
  | cons b as ih =>
      cases i with
      | zero =>
          obtain rfl : b = a := Option.some.inj ha
          simp [exec]
      | succ i =>
          have : as[i]? = some a := by simpa using ha
          simp only [List.take_succ_cons, exec, ih this, Option.bind_assoc]

theorem exec_take_isSome {f : σ → α → Option σ} {as : List α} {s : σ}
    (h : (exec f s as).isSome = true) (i : ℕ) : (exec f s (as.take i)).isSome = true := by
  induction as generalizing s i with
  | nil => simpa using h
  | cons a as ih =>
      cases i with
      | zero => rfl
      | succ i =>
          simp only [List.take_succ_cons, exec] at h ⊢
          cases hf : f s a with
          | none => simp [hf] at h
          | some s' => simp only [hf, Option.bind_some] at h ⊢; exact ih h i

/-- A run from `s₀`, finite or infinite: `len` steps, the `i`-th from `st i` by `act i`. -/
structure Run (T : σ → α → σ → Prop) (s₀ : σ) where
  len : ℕ∞
  st : ℕ → σ
  act : ℕ → α
  start : st 0 = s₀
  next : ∀ i : ℕ, (i : ℕ∞) < len → T (st i) (act i) (st (i + 1))

namespace Run

variable {T : σ → α → σ → Prop} {s₀ : σ} (r : Run T s₀)

theorem lt_of_succ_le {n : ℕ∞} {i : ℕ} (h : ((i + 1 : ℕ) : ℕ∞) ≤ n) : (i : ℕ∞) < n :=
  lt_of_lt_of_le (by exact_mod_cast Nat.lt_succ_self i) h

/-- What one step preserves holds from position `i` on, once it holds there. -/
theorem stable {P : σ → Prop} (hP : ∀ s a s', P s → T s a s' → P s') {i j : ℕ} (hij : i ≤ j)
    (hj : (j : ℕ∞) ≤ r.len) (hi : P (r.st i)) : P (r.st j) := by
  induction hij with
  | refl => exact hi
  | step _ ih =>
      have hlt := lt_of_succ_le hj
      exact hP _ _ _ (ih hlt.le) (r.next _ hlt)

/-- **The invariant rule, along a run.** -/
theorem invariant {P : σ → Prop} (h₀ : P s₀) (hP : ∀ s a s', P s → T s a s' → P s') {j : ℕ}
    (hj : (j : ℕ∞) ≤ r.len) : P (r.st j) :=
  r.stable hP (Nat.zero_le j) hj (by rw [r.start]; exact h₀)

theorem reachable {j : ℕ} (hj : (j : ℕ∞) ≤ r.len) : Reachable T s₀ (r.st j) :=
  r.invariant (P := Reachable T s₀) ⟨[], .refl _⟩ (fun _ _ _ h hs => h.next hs) hj

/-- The run through the labels `as`. -/
def ofExec {f : σ → α → Option σ} (hf : ∀ s a s', f s a = some s' → T s a s') (s₀ : σ)
    (as : List α) (d : α) (h : (exec f s₀ as).isSome = true) : Run T s₀ where
  len := as.length
  st i := (exec f s₀ (as.take i)).getD s₀
  act i := as.getD i d
  start := rfl
  next i hi := by
    have hlt : i < as.length := by exact_mod_cast hi
    have ha : as[i]? = some (as.getD i d) := by simp [List.getD, hlt]
    obtain ⟨s₁, h₁⟩ := Option.isSome_iff_exists.mp (exec_take_isSome h i)
    obtain ⟨s₂, h₂⟩ := Option.isSome_iff_exists.mp (exec_take_isSome h (i + 1))
    rw [h₁, h₂]
    rw [exec_take_succ ha, h₁] at h₂
    exact hf s₁ _ s₂ h₂

/-- One step, and then a run. -/
def cons {s₁ : σ} {a : α} (h : T s₀ a s₁) (r : Run T s₁) : Run T s₀ where
  len := r.len + 1
  st i := Nat.casesOn i s₀ r.st
  act i := Nat.casesOn i a r.act
  start := rfl
  next i hi := by
    cases i with
    | zero => rw [← r.start] at h; exact h
    | succ i => exact r.next i (by simpa using hi)

end Run

/-- The steps of a finite run are a run. -/
theorem Steps.exists_run {T : σ → α → σ → Prop} {s s' : σ} {as : List α} (h : Steps T s as s')
    (d : α) : ∃ r : Run T s, r.len = as.length ∧ r.st as.length = s' ∧
      ∀ i, r.act i = as.getD i d := by
  induction h with
  | refl s => exact ⟨⟨0, fun _ => s, fun _ => d, rfl, by simp⟩, rfl, rfl, by simp⟩
  | more h _ ih =>
      obtain ⟨r, hlen, hst, hact⟩ := ih
      refine ⟨r.cons h, by simp [Run.cons, hlen], hst, fun i => ?_⟩
      cases i with
      | zero => rfl
      | succ i => exact hact i

end Support
