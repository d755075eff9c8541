import CCoroutine.Scheduler.Calls
import CCoroutine.Scheduler.Execution

/-!
# Safety — Table

`co_free` releases a record and leaves its pointer in `S.all`, where `wakeup_waiters` reads every
slot whenever a coroutine finishes.  So the table is free of dangling pointers, and those reads
stay inside allocated records, exactly in the runs that never call `co_free` (`table_live_iff`),
also when `co_run` is called from a body.

Only `co_create` and `co_free` touch the table or release a record: every other step keeps both
(`step_table`).
-/

namespace CCoroutine
open Support (Run Reachable)

/-- The address at which a step creates a coroutine. -/
def Act.newAddr {Fn Arg : Type} : Act Fn Arg → Option Addr
  | .create _ _ _ (.ok co _) => some co
  | _ => none

/-- The state in which a function returns, or switches contexts. -/
def Outcome.state {Fn Arg : Type} : Outcome Fn Arg → State Fn Arg
  | .returns s | .switches s _ _ _ => s

namespace State

variable {Fn Arg : Type} {s s' : State Fn Arg}

/-- The table, and which records are allocated, are the same. -/
def SameTable (s s' : State Fn Arg) : Prop := s'.all = s.all ∧ s'.live = s.live

theorem SameTable.trans {s₁ s₂ s₃ : State Fn Arg} (h : s₁.SameTable s₂) (h' : s₂.SameTable s₃) :
    s₁.SameTable s₃ :=
  ⟨h'.1.trans h.1, h'.2.trans h.2⟩

theorem exists_of_bind_eq_ok {ε α β : Type} {x : Except ε α} {f : α → Except ε β} {b : β}
    (h : x >>= f = .ok b) : ∃ a, x = .ok a ∧ f a = .ok b := by
  cases x with
  | error e => cases h
  | ok a => exact ⟨a, rfl, h⟩

theorem qPush_table {co : Addr} (h : s.qPush co = .ok s') : s.SameTable s' := by
  obtain ⟨hq, rfl⟩ := qPush_inv h
  exact ⟨rfl, rfl⟩

theorem switchTo_table {ctx : Ctx} (h : s.switchTo ctx = .ok s') : s.SameTable s' := by
  obtain ⟨r, c, rfl⟩ := switchTo_inv h
  exact ⟨rfl, rfl⟩

theorem wakeupLoop_table {done : Addr} {l : List Addr} (h : wakeupLoop done l s = .ok s') :
    s.SameTable s' := by
  induction l generalizing s with
  | nil => cases h; exact ⟨rfl, rfl⟩
  | cons co rest ih =>
      rw [wakeupLoop] at h
      split at h
      · obtain ⟨s₁, hp, h⟩ := exists_of_bind_eq_ok h
        have hq := qPush_table hp
        exact hq.trans (ih h)
      · exact ih h

/-- A switch of contexts, or a return, is of no account to the table. -/
theorem finish_table {o : Outcome Fn Arg} (h : o.finish = .ok s') : o.state.SameTable s' := by
  cases o with
  | returns s₁ => cases h; exact ⟨rfl, rfl⟩
  | switches s₁ src dst pt =>
      have hsave : s₁.SameTable (s₁.save src pt) := by cases src <;> exact ⟨rfl, rfl⟩
      exact hsave.trans (switchTo_table h)

theorem coYield_table {who : Option Addr} (h : s.coYield who = .ok s') : s.SameTable s' := by
  obtain ⟨o, hu, hf⟩ := exists_of_bind_eq_ok h
  refine SameTable.trans ?_ (finish_table hf)
  unfold coYieldUpTo at hu
  split at hu
  · cases hu
  · obtain ⟨s₁, hp, hu⟩ := exists_of_bind_eq_ok hu
    have hq := qPush_table hp
    cases hu
    exact hq

theorem coAwait_table {who other : Option Addr} (h : s.coAwait who other = .ok s') :
    s.SameTable s' := by
  obtain ⟨o, hu, hf⟩ := exists_of_bind_eq_ok h
  refine SameTable.trans ?_ (finish_table hf)
  unfold coAwaitUpTo at hu
  split at hu
  · cases hu
  · split at hu
    · cases hu; exact ⟨rfl, rfl⟩
    · split at hu <;> cases hu
      exact ⟨rfl, rfl⟩

theorem coEntryRet_table {co : Addr} (h : s.coEntryRet co = .ok s') : s.SameTable s' := by
  obtain ⟨o, hu, hf⟩ := exists_of_bind_eq_ok h
  refine SameTable.trans ?_ (finish_table hf)
  obtain ⟨s₁, hw, hu⟩ := exists_of_bind_eq_ok hu
  have hq := wakeupLoop_table hw
  cases hu
  exact hq

theorem runLoop_table {who : Option Addr} (h : s.runLoop who = .ok s') : s.SameTable s' := by
  obtain ⟨o, hu, hf⟩ := exists_of_bind_eq_ok h
  refine SameTable.trans ?_ (finish_table hf)
  have hp : s.SameTable s.qPop.2 := ⟨rfl, rfl⟩
  unfold runLoopUpTo at hu
  split at hu
  · next s₁ hq =>
      rw [hq] at hp
      cases hu
      exact hp
  · next co s₁ hq =>
      rw [hq] at hp
      split at hu <;> cases hu
      exact hp

/-- `co_create` returns the address it registers. -/
theorem coCreate_returns {fn : Option Fn} {arg : Option Arg} {n : ℕ} {al : Alloc}
    {o : Option Addr} (h : s.coCreate fn arg n al = .ok (o, s')) :
    o = (Act.create fn arg n al).newAddr := by
  obtain ⟨f, rfl, -, ⟨rfl, rfl, -⟩ | ⟨co, rfl, rfl, -⟩ | ⟨co, stack, hq, rfl, rfl, -⟩⟩ :=
    coCreate_inv h <;> rfl

theorem coCreate_table {fn : Option Fn} {arg : Option Arg} {n : ℕ} {al : Alloc} {o : Option Addr}
    (h : s.coCreate fn arg n al = .ok (o, s')) :
    (o = none ∧ s.SameTable s') ∨
      ∃ co, o = some co ∧ s'.all = s.all ++ [co] ∧ s'.live = Function.update s.live co true := by
  obtain ⟨f, rfl, -, ⟨rfl, rfl, rfl⟩ | ⟨co, rfl, rfl, rfl⟩ | ⟨co, stack, hq, rfl, rfl, rfl⟩⟩ :=
    coCreate_inv h
  · exact .inl ⟨rfl, rfl, rfl⟩
  · exact .inl ⟨rfl, rfl, rfl⟩
  · exact .inr ⟨co, rfl, rfl, rfl⟩

/-- The record it returns has the next id and is in the next slot. -/
theorem coCreate_some {fn : Option Fn} {arg : Option Arg} {n : ℕ} {al : Alloc} {co : Addr}
    (h : s.coCreate fn arg n al = .ok (some co, s')) :
    (s'.mem co).id = s.all.length + 1 ∧ s'.all = s.all ++ [co] := by
  obtain ⟨f, rfl, -, ⟨-, ⟨⟩, -⟩ | ⟨b, -, ⟨⟩, -⟩ | ⟨b, stack, hq, -, ⟨⟩, rfl⟩⟩ := coCreate_inv h
  simp [created, newCo]

/-- **The table.**  A step keeps it, or registers a new record, or releases one. -/
theorem step_table {a : Act Fn Arg} (h : s.step a = .ok s') :
    (a.newAddr = none ∧ s.SameTable s') ∨
    (∃ co, a.newAddr = some co ∧ s'.all = s.all ++ [co] ∧
      s'.live = Function.update s.live co true) ∨
    ∃ co, a = .free (some co) ∧ s'.all = s.all ∧ s'.live = Function.update s.live co false := by
  cases hc : s.ctl with
  | loop who =>
      cases a with
      | sched =>
          rw [step_loop hc] at h
          exact .inl ⟨rfl, runLoop_table h⟩
      | _ => cases eq_sched_of_loop hc h
  | user who =>
      have hcall : s.call who a = .ok s' := (step_user hc).symm.trans h
      cases a with
      | create fn arg n m =>
          obtain ⟨-, o, -, he⟩ := step_create_inv h
          rw [← coCreate_returns he]
          rcases coCreate_table he with htable | ⟨co, rfl, htable⟩
          · exact .inl htable
          · exact .inr (.inl ⟨co, rfl, htable⟩)
      | free co =>
          rw [call_free] at hcall
          obtain ⟨b, rfl, rfl⟩ := coFree_inv hcall
          exact .inr (.inr ⟨b, rfl, rfl, rfl⟩)
      | yield => exact .inl ⟨rfl, coYield_table hcall⟩
      | await other => exact .inl ⟨rfl, coAwait_table hcall⟩
      | run | id => cases hcall; exact .inl ⟨rfl, rfl, rfl⟩
      | state co => cases co <;> cases hcall; exact .inl ⟨rfl, rfl, rfl⟩
      | ret =>
          cases who with
          | none => cases hcall
          | some c => exact .inl ⟨rfl, coEntryRet_table hcall⟩
      | sched => cases hcall

/-- The table grows by what `co_create` registers. -/
theorem step_all {a : Act Fn Arg} (h : s.step a = .ok s') :
    s'.all = s.all ++ a.newAddr.toList := by
  rcases step_table h with ⟨hn, hall, -⟩ | ⟨co, hco, hall, -⟩ | ⟨co, rfl, hall, -⟩
  · rw [hn, hall]; exact (List.append_nil _).symm
  · rw [hco, hall]; rfl
  · rw [hall]; exact (List.append_nil _).symm

/-- The id of a new coroutine. -/
theorem step_create_id {fn : Option Fn} {arg : Option Arg} {n : ℕ} {co stack : Addr}
    (h : s.step (.create fn arg n (.ok co stack)) = .ok s') :
    (s'.mem co).id = s.all.length + 1 := by
  obtain ⟨-, o, -, he⟩ := step_create_inv h
  obtain rfl : o = some co := coCreate_returns he
  exact (coCreate_some he).1

theorem step_free_live {co : Addr} (h : s.step (.free (some co)) = .ok s') :
    s'.live = Function.update s.live co false := by
  cases hc : s.ctl with
  | loop who => cases eq_sched_of_loop hc h
  | user who =>
      have hcall : s.coFree (some co) = .ok s' := by rwa [step_user hc, call_free] at h
      obtain ⟨b, ⟨⟩, rfl⟩ := coFree_inv hcall
      rfl

/-- What is allocated was allocated before and has not been freed, or is new. -/
theorem live_before {a : Act Fn Arg} (h : s.step a = .ok s') {x : Addr} (hx : s'.live x = true) :
    (s.live x = true ∧ a ≠ .free (some x)) ∨ a.newAddr = some x := by
  by_cases hf : ∃ co, a = .free (some co)
  · obtain ⟨co, rfl⟩ := hf
    rw [step_free_live h] at hx
    by_cases e : x = co
    · simp [e] at hx
    · refine .inl ⟨by simpa [e] using hx, ?_⟩
      rintro ⟨⟩
      exact e rfl
  · have hne : a ≠ .free (some x) := fun e => hf ⟨x, e⟩
    rcases step_table h with ⟨-, -, hlive⟩ | ⟨co, hco, -, hlive⟩ | ⟨co, rfl, -⟩
    · exact .inl ⟨hlive ▸ hx, hne⟩
    · by_cases e : x = co
      · exact .inr (e ▸ hco)
      · exact .inl ⟨by simpa [hlive, e] using hx, hne⟩
    · exact absurd ⟨co, rfl⟩ hf

/-! ### Dangling pointers -/

/-- Each pointer in `S.all` refers to an allocated record. -/
def TableLive (s : State Fn Arg) : Prop := ∀ a ∈ s.all, s.live a = true

/-- An allocated record is registered. -/
theorem mem_all_of_live {a : Act Fn Arg} (h : ∀ b, s.live b = true → b ∈ s.all)
    (hs : Step s a s') : ∀ b, s'.live b = true → b ∈ s'.all := by
  intro b hb
  rw [step_all hs.2]
  rcases live_before hs.2 hb with ⟨hlive, -⟩ | hnew
  · exact List.mem_append_left _ (h b hlive)
  · rw [hnew]
    exact List.mem_append_right _ List.mem_cons_self

/-- A step other than `co_free` leaves no dangling pointer. -/
theorem TableLive.step {a : Act Fn Arg} (h : s.TableLive) (hs : Step s a s')
    (ha : ∀ co, a ≠ .free co) : s'.TableLive := by
  intro b hb
  rcases step_table hs.2 with ⟨-, hall, hlive⟩ | ⟨co, -, hall, hlive⟩ | ⟨co, e, -, -⟩
  · rw [hlive]; exact h b (hall ▸ hb)
  · rw [hall] at hb
    rw [hlive]
    by_cases e : b = co
    · rw [e, Function.update_self]
    · rw [Function.update_of_ne e]
      exact h b ((List.mem_append.mp hb).resolve_right (by simpa using e))
  · exact absurd e (ha _)

/-- `co_free` leaves one: the record it releases was registered. -/
theorem not_tableLive_of_free (h : ∀ b, s.live b = true → b ∈ s.all) {co : Option Addr}
    (hs : Step s (.free co) s') : ¬ s'.TableLive := by
  obtain ⟨⟨⟨who, hc⟩, b, rfl, hb, hd⟩, hs⟩ := hs
  rw [step_user hc, call_free, coFree_of_done hd] at hs
  cases hs
  intro ht
  have hfree : (s.freed b).live b = true := ht b (h b hb)
  simp [freed] at hfree

end State

open State

/-- **No dangling table entry, exactly without `co_free`.**  In every state of a run the pointers
in `S.all` refer to allocated records, and so does each slot that `wakeup_waiters` reads when a
body returns, if and only if the run never calls `co_free`. -/
theorem table_live_iff {Fn Arg : Type} (r : Run Step (init : State Fn Arg)) :
    ((∀ i : ℕ, (i : ℕ∞) ≤ r.len → (r.st i).TableLive) ∧
      ∀ i : ℕ, (i : ℕ∞) < r.len → r.act i = .ret →
        ∀ a ∈ (r.st i).all, (r.st i).live a = true) ↔
    ∀ i : ℕ, (i : ℕ∞) < r.len → ∀ co, r.act i ≠ .free co := by
  constructor
  · rintro ⟨hlive, -⟩ i hi co hf
    have hreg : ∀ b, (r.st i).live b = true → b ∈ (r.st i).all :=
      r.invariant (fun b hb => by cases hb) (fun _ _ _ h hs => mem_all_of_live h hs) hi.le
    refine not_tableLive_of_free hreg (hf ▸ r.next i hi) (hlive (i + 1) ?_)
    exact Order.add_one_le_of_lt hi
  · intro hf
    have hlive : ∀ i : ℕ, (i : ℕ∞) ≤ r.len → (r.st i).TableLive := by
      intro i
      induction i with
      | zero => intro _ a ha; rw [r.start] at ha; cases ha
      | succ i ih =>
          intro hi
          have hlt := Run.lt_of_succ_le hi
          exact (ih hlt.le).step (r.next i hlt) (hf i hlt)
    exact ⟨hlive, fun i hi _ => hlive i hi.le⟩

/-- A coroutine finishes and is freed; a second one is about to return. -/
def freedThenReturn : List (Act Unit Unit) :=
  [.create (some ()) none 0 (.ok 10 11), .run, .sched, .ret, .sched, .free (some 10),
    .create (some ()) none 0 (.ok 20 21), .run, .sched]

/-- `wakeup_waiters`, called when the second coroutine returns, reads the released record of the
first. -/
theorem freed_slot_read : ∃ s : State Unit Unit, Reachable StepM init s ∧ s.Legal .ret ∧
    ∃ a ∈ s.all, s.live a = false :=
  ⟨after freedThenReturn, reachable_after _ (by decide), ⟨20, rfl⟩, 10, by decide, by decide⟩

end CCoroutine
