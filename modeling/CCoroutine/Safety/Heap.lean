import CCoroutine.Refinement.Control
import CCoroutine.Safety.Table
import Mathlib.Data.Finset.Basic

/-!
# Safety — Heap

What `co_create` and `co_free` ask of the C allocator.  A coroutine is two blocks, its record and
its stack; `co_create` gives the record back when the stack cannot be had, and `co_free` gives back
both.  Between two calls the blocks of the library are exactly those two for every coroutine that
has been created and not freed, so that nothing leaks and no block is freed twice
(`State.heap_exact`), also when `co_run` is called from a body.
-/

namespace CCoroutine
open Support (exec Reachable)

/-- A call of the C allocator: `calloc` or `malloc` with the block it returns, or `free`. -/
inductive HeapCall where
  | alloc (x : Addr)
  | free (x : Option Addr)
  deriving DecidableEq

/-- The allocated blocks after the call.  It fails when the block is in use already, or when what
is freed is not allocated; `free(NULL)` does nothing. -/
def HeapCall.run (B : Finset Addr) : HeapCall → Option (Finset Addr)
  | alloc x => if x ∈ B then none else some (insert x B)
  | free none => some B
  | free (some x) => if x ∈ B then some (B.erase x) else none

/-- The allocator returns blocks that are not in use. -/
def Alloc.Fresh (B : Finset Addr) : Alloc → Prop
  | .callocFails => True
  | .mallocFails co => co ∉ B
  | .ok co stack => co ∉ B ∧ stack ∉ B ∧ co ≠ stack

def Act.Fresh {Fn Arg : Type} (B : Finset Addr) : Act Fn Arg → Prop
  | .create _ _ _ m => m.Fresh B
  | _ => True

namespace State

variable {Fn Arg : Type} {s s' : State Fn Arg} {a : Act Fn Arg} {B : Finset Addr} {x co : Addr}

/-- The calls of the allocator in a step, in order. -/
def heapCalls (s : State Fn Arg) : Act Fn Arg → List HeapCall
  | .create _ _ _ m => match m with
    | .callocFails => []
    | .mallocFails co => [.alloc co, .free (some co)]
    | .ok co stack => [.alloc co, .alloc stack]
  | .free (some co) => [.free (s.mem co).stack, .free (some co)]
  | _ => []

/-- A step of a program, with the blocks that are allocated. -/
def HeapStep (p : State Fn Arg × Finset Addr) (a : Act Fn Arg) (p' : State Fn Arg × Finset Addr) :
    Prop :=
  Step p.1 a p'.1 ∧ exec HeapCall.run p.2 (p.1.heapCalls a) = some p'.2

/-- The same, computed. -/
def heapNext (p : State Fn Arg × Finset Addr) (a : Act Fn Arg) :
    Option (State Fn Arg × Finset Addr) :=
  (p.1.next a).bind fun s' => (exec HeapCall.run p.2 (p.1.heapCalls a)).map (Prod.mk s')

theorem heapStep_of_heapNext {p p' : State Fn Arg × Finset Addr} (h : heapNext p a = some p') :
    HeapStep p a p' := by
  obtain ⟨s', hs, h⟩ := Option.bind_eq_some_iff.mp h
  obtain ⟨B', hB, rfl⟩ := Option.map_eq_some_iff.mp h
  exact ⟨step_of_next hs, hB⟩

/-! ### Who owns a block -/

/-- The coroutine at `co` is unfreed, and the block `x` is its record or its stack. -/
def Owns (s : State Fn Arg) (co x : Addr) : Prop :=
  s.live co = true ∧ (x = co ∨ (s.mem co).stack = some x)

/-- The allocated blocks: two for each unfreed coroutine. -/
structure HeapOk (s : State Fn Arg) (B : Finset Addr) : Prop where
  mem_iff : ∀ x, x ∈ B ↔ ∃ co, s.Owns co x
  stack : ∀ co, s.live co = true → ∃ st, (s.mem co).stack = some st ∧ st ≠ co
  unique : ∀ co co' x, s.Owns co x → s.Owns co' x → co = co'

/-- **A coroutine keeps its stack**, in every step. -/
theorem Inv.stack_step (h : s.Inv) (hs : Step s a s') (hx : s.live x = true) :
    (s'.mem x).stack = (s.mem x).stack := by
  have hat := fun hr ha => h.attached_of_step hs hr ha
  obtain ⟨hl, hs⟩ := hs
  -- a record is written by the coroutine's own step, or when it is woken
  have hupdate : ∀ (c : Addr) (r : Coroutine Fn Arg), r.stack = (s.mem c).stack →
      (Function.update s.mem c r x).stack = (s.mem x).stack := by
    intro c r hr
    by_cases e : x = c
    · subst e; rw [Function.update_self, hr]
    · rw [Function.update_of_ne e]
  cases a with
  | create fn arg n m =>
      obtain ⟨who, o, hc, he⟩ := step_create_inv hs
      obtain ⟨f, rfl, -, ⟨rfl, -, rfl⟩ | ⟨co, rfl, -, rfl⟩ | ⟨co, stack, hq, rfl, -, rfl⟩⟩ :=
        coCreate_inv he
      · rfl
      · have hne : x ≠ co := fun e => by simp [e, hl.2.2] at hx
        exact congrArg Coroutine.stack (Function.update_of_ne hne ..)
      · have hne : x ≠ co := fun e => by simp [e, hl.2.2] at hx
        exact congrArg Coroutine.stack (Function.update_of_ne hne ..)
  | free co =>
      obtain ⟨⟨who, hc⟩, b, rfl, hb, hd⟩ := hl
      simp only [step_user hc, call_free, coFree_of_done hd] at hs
      cases hs
      rfl
  | yield =>
      obtain ⟨c, hc⟩ := hl
      obtain ⟨hr, o, rest, hf, hm⟩ := h.holds (hat trivial (by simp)) hc
      simp only [step_user hc, call_yield, coYield_eq hr hm (mem_frames hf) h.size_lt] at hs
      cases hs
      exact hupdate c _ rfl
  | await other =>
      obtain ⟨⟨c, hc⟩, b, rfl, hb⟩ := hl
      by_cases hd : (s.mem b).state = .done
      · simp only [step_user hc, call_await, coAwait_of_done hd] at hs
        cases hs
        rfl
      · obtain ⟨hr, o, rest, hf, hm⟩ := h.holds (hat hd (by simp)) hc
        simp only [step_user hc, call_await, coAwait_eq hd hr hm (mem_frames hf)] at hs
        cases hs
        exact hupdate c _ rfl
  | run =>
      obtain ⟨who, hc⟩ := hl
      simp only [step_user hc, call_run] at hs
      cases hs
      rfl
  | state co =>
      obtain ⟨⟨who, hc⟩, b, rfl, hb⟩ := hl
      simp only [step_user hc, call_state] at hs
      cases hs
      rfl
  | id =>
      obtain ⟨who, hc⟩ := hl
      simp only [step_user hc, call_id] at hs
      cases hs
      rfl
  | ret =>
      obtain ⟨c, hc⟩ := hl
      obtain ⟨hr, o, rest, hf, hm⟩ := h.holds (hat trivial (by simp)) hc
      obtain ⟨q', he, -⟩ := coEntryRet_eq (by simp [(h.running_of_ctl hc).2]) hm
        (mem_frames hf) ((h.room c).trans h.lt_queueCap.le)
      simp only [step_user hc, call_ret_body, he] at hs
      cases hs
      simp only [finished, finishMem, wokenMem]
      split
      · next e => subst e; rfl
      · split <;> rfl
  | sched =>
      obtain ⟨who, hc⟩ := hl
      simp only [step_loop hc] at hs
      cases hq : s.runQueue with
      | nil =>
          rw [runLoop_nil hq] at hs
          cases hs
          rfl
      | cons co rest =>
          obtain ⟨hl, hst⟩ := h.mem_runQueue.mp (hq ▸ List.mem_cons_self : co ∈ s.runQueue)
          obtain ⟨q', he, -⟩ := runLoop_cons who hq hst (h.ctx co hl hst) (h.fn co hl)
          rw [he] at hs
          cases hs
          exact hupdate co _ rfl

/-! ### One step -/

theorem HeapOk.empty : (init : State Fn Arg).HeapOk ∅ where
  mem_iff x := ⟨fun h => absurd h (Finset.notMem_empty x), fun ⟨_, h, _⟩ => by cases h⟩
  stack co h := by cases h
  unique co co' x h := by cases h.1

/-- A step that keeps the coroutines and their stacks. -/
theorem HeapOk.frame (h : s.HeapOk B) (hlive : s'.live = s.live)
    (hstack : ∀ x, s.live x = true → (s'.mem x).stack = (s.mem x).stack) : s'.HeapOk B := by
  have howns : ∀ co x, s'.Owns co x ↔ s.Owns co x := by
    intro co x
    simp only [Owns, hlive]
    exact and_congr_right fun hl => by rw [hstack co hl]
  refine ⟨?_, ?_, ?_⟩
  · intro x
    rw [h.mem_iff]
    exact exists_congr fun co => (howns co x).symm
  · intro co hl
    rw [hlive] at hl
    rw [hstack co hl]
    exact h.stack co hl
  · intro co co' x hc hc'
    exact h.unique co co' x ((howns co x).mp hc) ((howns co' x).mp hc')

theorem HeapOk.not_live (h : s.HeapOk B) (hco : co ∉ B) : s.live co ≠ true := fun hl =>
  hco ((h.mem_iff co).mpr ⟨co, hl, .inl rfl⟩)

theorem HeapOk.create (h : s.HeapOk B) {stack : Addr} (hf : (Alloc.ok co stack).Fresh B)
    {r : Coroutine Fn Arg} (hr : r.stack = some stack) {q : Support.Ring Addr queueCap} :
    (s.created co r q).HeapOk (insert stack (insert co B)) := by
  obtain ⟨hco, hst, hne⟩ := hf
  have hdead := h.not_live hco
  -- the new coroutine owns the two blocks, and the others what they owned
  have hnew : ∀ x, (s.created co r q).Owns co x ↔ x = co ∨ x = stack := by
    intro x
    simp [Owns, created, hr, eq_comm]
  have hold : ∀ b x, b ≠ co → ((s.created co r q).Owns b x ↔ s.Owns b x) := by
    intro b x hb
    simp [Owns, created, hb]
  have hmem : ∀ b x, s.Owns b x → x ∈ B ∧ b ≠ co := by
    intro b x hb
    exact ⟨(h.mem_iff x).mpr ⟨b, hb⟩, fun e => hdead (e ▸ hb.1)⟩
  refine ⟨?_, ?_, ?_⟩
  · intro x
    rw [Finset.mem_insert, Finset.mem_insert]
    constructor
    · rintro (rfl | rfl | hx)
      · exact ⟨co, (hnew _).mpr (.inr rfl)⟩
      · exact ⟨_, (hnew _).mpr (.inl rfl)⟩
      · obtain ⟨b, hb⟩ := (h.mem_iff x).mp hx
        exact ⟨b, (hold b x (hmem b x hb).2).mpr hb⟩
    · rintro ⟨b, hb⟩
      by_cases e : b = co
      · subst e
        rcases (hnew x).mp hb with rfl | rfl
        · exact .inr (.inl rfl)
        · exact .inl rfl
      · exact .inr (.inr (hmem b x ((hold b x e).mp hb)).1)
  · intro b hb
    by_cases e : b = co
    · subst e
      exact ⟨stack, by simp [created, hr], hne.symm⟩
    · obtain ⟨st, hst, hstb⟩ := h.stack b (by simpa [created, e] using hb)
      exact ⟨st, by simpa [created, e] using hst, hstb⟩
  · intro b b' x hb hb'
    have hfresh : ∀ b, b ≠ co → (s.created co r q).Owns b x → ¬ (s.created co r q).Owns co x := by
      intro b e hb hb'
      have hx := (hmem b x ((hold b x e).mp hb)).1
      rcases (hnew x).mp hb' with rfl | rfl
      · exact hco hx
      · exact hst hx
    by_cases e : b = co
    · subst e
      by_contra e'
      exact hfresh b' (Ne.symm e') hb' hb
    · by_cases e' : b' = co
      · subst e'
        exact absurd hb' (hfresh b e hb)
      · exact h.unique b b' x ((hold b x e).mp hb) ((hold b' x e').mp hb')

theorem HeapOk.free (h : s.HeapOk B) {stack : Addr} (hl : s.live co = true)
    (hst : (s.mem co).stack = some stack) : (s.freed co).HeapOk ((B.erase stack).erase co) := by
  have howns : ∀ b x, (s.freed co).Owns b x ↔ b ≠ co ∧ s.Owns b x := by
    intro b x
    by_cases e : b = co
    · simp [Owns, freed, e]
    · simp [Owns, freed, e]
  refine ⟨?_, ?_, ?_⟩
  · intro x
    rw [Finset.mem_erase, Finset.mem_erase, h.mem_iff]
    constructor
    · rintro ⟨hne, hns, b, hb⟩
      refine ⟨b, (howns b x).mpr ⟨?_, hb⟩⟩
      rintro rfl
      rcases hb.2 with e | e
      · exact hne e
      · exact hns (Option.some.inj (e.symm.trans hst))
    · rintro ⟨b, hb⟩
      obtain ⟨hne, hb⟩ := (howns b x).mp hb
      refine ⟨fun e => ?_, fun e => ?_, b, hb⟩
      · exact hne (h.unique b co x hb ⟨hl, .inl e⟩)
      · exact hne (h.unique b co x hb ⟨hl, .inr (e ▸ hst)⟩)
  · intro b hb
    by_cases e : b = co
    · simp [freed, e] at hb
    · exact h.stack b (by simpa [freed, e] using hb)
  · intro b b' x hb hb'
    exact h.unique b b' x ((howns b x).mp hb).2 ((howns b' x).mp hb').2

/-- **The allocator does what a step asks of it**, and the blocks stay those of the coroutines. -/
theorem HeapOk.step (h : s.HeapOk B) (hi : s.Inv) (hs : Step s a s') (hf : a.Fresh B) :
    ∃ B', exec HeapCall.run B (s.heapCalls a) = some B' ∧ s'.HeapOk B' := by
  by_cases hfree : ∃ co, a = .free co
  · obtain ⟨co, rfl⟩ := hfree
    obtain ⟨⟨⟨who, hc⟩, b, rfl, hb, hd⟩, hs⟩ := hs
    rw [step_user hc, call_free, coFree_of_done hd] at hs
    cases hs
    obtain ⟨st, hst, hne⟩ := h.stack b hb
    have hstB : st ∈ B := (h.mem_iff st).mpr ⟨b, hb, .inr hst⟩
    have hbB : b ∈ B := (h.mem_iff b).mpr ⟨b, hb, .inl rfl⟩
    refine ⟨_, ?_, h.free hb hst⟩
    simp [heapCalls, exec, HeapCall.run, hst, hstB, hbB, hne.symm]
  · by_cases hnew : ∃ fn arg n m, a = .create fn arg n m
    · obtain ⟨fn, arg, n, m, rfl⟩ := hnew
      obtain ⟨who, o, hc, he⟩ := step_create_inv hs.2
      have hstack := fun x hx => hi.stack_step hs (x := x) hx
      obtain ⟨f, rfl, -, ⟨rfl, -, rfl⟩ | ⟨co, rfl, -, rfl⟩ | ⟨co, stack, hq, rfl, -, rfl⟩⟩ :=
        coCreate_inv he
      · exact ⟨B, rfl, h⟩
      · refine ⟨B, ?_, h.frame rfl hstack⟩
        have hco : co ∉ B := hf
        simp [heapCalls, exec, HeapCall.run, hco]
      · refine ⟨_, ?_, h.create hf rfl⟩
        obtain ⟨hco, hst, hne⟩ := hf
        simp [heapCalls, exec, HeapCall.run, hco, hst, hne.symm]
    · refine ⟨B, ?_, ?_⟩
      · cases a with
        | create fn arg n m => exact absurd ⟨fn, arg, n, m, rfl⟩ hnew
        | free co => exact absurd ⟨co, rfl⟩ hfree
        | _ => rfl
      · rcases step_table hs.2 with ⟨-, -, hlive⟩ | ⟨co, hco, -⟩ | ⟨co, rfl, -⟩
        · exact h.frame hlive fun x hx => hi.stack_step hs hx
        · cases a with
          | create fn arg n m => exact absurd ⟨fn, arg, n, m, rfl⟩ hnew
          | _ => cases hco
        · exact absurd ⟨_, rfl⟩ hfree

/-- The calls succeed only when the blocks that are returned were not in use. -/
theorem fresh_of_exec {B' : Finset Addr} (h : exec HeapCall.run B (s.heapCalls a) = some B') :
    a.Fresh B := by
  cases a with
  | create fn arg n m =>
      cases m with
      | callocFails => trivial
      | mallocFails co =>
          intro hco
          simp [heapCalls, exec, HeapCall.run, hco] at h
      | ok co stack =>
          have hco : co ∉ B := by
            intro hco
            simp [heapCalls, exec, HeapCall.run, hco] at h
          refine ⟨hco, ?_, ?_⟩
          · intro hst
            simp [heapCalls, exec, HeapCall.run, hco, hst] at h
          · rintro rfl
            simp [heapCalls, exec, HeapCall.run, hco] at h
  | _ => trivial

/-! ### Runs -/

theorem heapOk_of_reachable (h : Reachable HeapStep ((init : State Fn Arg), ∅) (s, B)) :
    s.Inv ∧ s.HeapOk B := by
  refine Reachable.invariant (P := fun p => p.1.Inv ∧ p.1.HeapOk p.2) ⟨inv_init, .empty⟩ ?_ h
  intro p a p' hp hs
  obtain ⟨hi, hok⟩ := hp
  obtain ⟨B', he, hok'⟩ := hok.step hi hs.1 (fresh_of_exec hs.2)
  obtain rfl := Option.some.inj (he.symm.trans hs.2)
  exact ⟨hi.kept hs.1, hok'⟩

/-- **No leak, no double free.**  In every state of every program the allocated blocks are the
record and the stack of each coroutine created and not freed, all different.  When the allocator
returns unused blocks, every step succeeds with it; a `co_create` that returns `NULL` leaves the
blocks as they were, and with the last `co_free` the last block is gone. -/
theorem heap_exact (h : Reachable HeapStep ((init : State Fn Arg), ∅) (s, B)) :
    s.HeapOk B ∧
    (∀ a s', Step s a s' → a.Fresh B → ∃ B', HeapStep (s, B) a (s', B')) ∧
    (∀ fn arg n m s' B', HeapStep (s, B) (.create fn arg n m) (s', B') →
      (Act.create fn arg n m).newAddr = none → B' = B) ∧
    ((∀ co, s.live co = false) → B = ∅) := by
  obtain ⟨hi, hok⟩ := heapOk_of_reachable h
  refine ⟨hok, ?_, ?_, ?_⟩
  · intro a s' hs hf
    obtain ⟨B', he, -⟩ := hok.step hi hs hf
    exact ⟨B', hs, he⟩
  · intro fn arg n m s' B' hs hnew
    have hf := fresh_of_exec hs.2
    have he := hs.2
    cases m with
    | callocFails => exact (Option.some.inj he).symm
    | mallocFails co =>
        have hco : co ∉ B := hf
        simpa [heapCalls, exec, HeapCall.run, hco, eq_comm] using he
    | ok co stack => cases hnew
  · intro hnone
    refine Finset.eq_empty_of_forall_notMem fun x hx => ?_
    obtain ⟨co, hl, -⟩ := (hok.mem_iff x).mp hx
    rw [hnone co] at hl
    cases hl

/-- Two coroutines are created, after one whose stack could not be had; the first one ends and is
freed. -/
def firstFreed : List (Act Unit Unit) :=
  [.create (some ()) none 0 (.mallocFails 10), .create (some ()) none 0 (.ok 10 100),
    .create (some ()) none 0 (.ok 20 200), .run, .sched, .ret, .sched, .free (some 10)]

theorem heap_exact_firstFreed :
    ∃ s : State Unit Unit, Reachable HeapStep (init, ∅) (s, {20, 200}) ∧
      s.HeapOk {20, 200} ∧ s.live 10 = false := by
  have h : ((exec heapNext ((init : State Unit Unit), ∅) firstFreed).map fun p =>
      (p.2, p.1.live 10)) = some ({20, 200}, false) := by decide
  obtain ⟨⟨s, B⟩, he, hp⟩ := Option.map_eq_some_iff.mp h
  obtain ⟨rfl, hl⟩ := Prod.mk.inj hp
  have hr : Reachable HeapStep (init, ∅) (s, {20, 200}) :=
    ⟨_, Support.steps_of_exec (fun _ _ _ => heapStep_of_heapNext) he⟩
  exact ⟨s, hr, (heap_exact hr).1, hl⟩

end State

end CCoroutine
