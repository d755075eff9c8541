import CCoroutine.Backend.Builds
import CCoroutine.Support.Memory

/-!
# Backend — Ucontext

The build without `USE_ASM_CTX`.  A context is a `ucontext_t`: `makecontext` stores a function and
its arguments, `swapcontext` the continuation of its caller, and a switch starts the one or
continues the other.

The arguments that `makecontext` passes on are of type `int`, so `co_create` hands the coroutine to
`co_entry_uc` in two halves.  For a pointer of 64 bits nothing is lost (`coEntryUc_split`).
-/

namespace CCoroutine.Ucontext
open Support (Word)

/-! ### The pointer in two halves -/

/-- `(uint32_t)(ptr >> 32)`. -/
def hiOf (ptr : Word) : BitVec 32 := (ptr >>> 32).setWidth 32

/-- `(uint32_t)(ptr & 0xffffffffu)`. -/
def loOf (ptr : Word) : BitVec 32 := (ptr &&& 0xffffffff#64).setWidth 32

/-- The coroutine that `co_entry_uc` is for: `(uintptr_t)hi << 32 | (uintptr_t)lo`. -/
def coEntryUc (hi lo : BitVec 32) : Word := hi.setWidth 64 <<< 32 ||| lo.setWidth 64

theorem getLsbD_mask (i : ℕ) : (0xffffffff#64).getLsbD i = decide (i < 32) := by
  rw [show 0xffffffff#64 = BitVec.ofNat 64 (2 ^ 32 - 1) from rfl, BitVec.getLsbD_ofNat,
    Nat.testBit_two_pow_sub_one]
  by_cases h : i < 32
  · have : i < 64 := by omega
    simp [h, this]
  · simp [h]

/-- **`co_entry_uc` gets the pointer back.** -/
theorem coEntryUc_split (ptr : Word) : coEntryUc (hiOf ptr) (loOf ptr) = ptr := by
  apply BitVec.eq_of_getLsbD_eq
  intro i hi
  rw [coEntryUc, hiOf, loOf]
  by_cases h : i < 32
  · simp [getLsbD_mask, h, hi]
  · have hlt : i - 32 < 32 := by omega
    have hadd : 32 + (i - 32) = i := by omega
    simp [h, hi, hlt, hadd]

/-! ### The contexts -/

/-- A `ucontext_t`. -/
inductive UCtx where
  /-- All zero. -/
  | unset
  /-- `makecontext` has stored `co_entry_uc` and its arguments. -/
  | made (hi lo : BitVec 32)
  /-- `swapcontext` has stored the continuation of its caller. -/
  | saved (pt : Ctx)

/-- What a switch to the context executes. -/
def UCtx.start : UCtx → Ctx
  | .unset => .zero
  | .made hi lo => .trampoline (coEntryUc hi lo).toNat
  | .saved pt => pt

/-- `ctx none` is `S.main_ctx`, and `ctx (some co)` is `co->ctx`. -/
structure World where
  /-- The context that executes. -/
  cur : Option Addr
  ctx : Option Addr → UCtx

namespace World

/-- `getcontext`, the stores to `uc_stack` and `uc_link`, and `makecontext`. -/
def makecontext (w : World) (co : Addr) : World :=
  let ptr := BitVec.ofNat 64 co
  { w with ctx := Function.update w.ctx (some co) (.made (hiOf ptr) (loOf ptr)) }

def swapcontext (w : World) (src dst : Option Addr) (pt : Ctx) : World where
  cur := dst
  ctx := Function.update w.ctx src (.saved pt)

variable (w : World) {co : Addr} {src dst i : Option Addr} {pt : Ctx}

theorem start_makecontext (h : co < 2 ^ 64) :
    ((w.makecontext co).ctx (some co)).start = .trampoline co := by
  simp only [makecontext, Function.update_self, UCtx.start, coEntryUc_split, BitVec.toNat_ofNat,
    Nat.mod_eq_of_lt h]

theorem ctx_makecontext_of_ne (h : i ≠ some co) : (w.makecontext co).ctx i = w.ctx i :=
  Function.update_of_ne h _ _

theorem ctx_swapcontext_self : (w.swapcontext src dst pt).ctx src = .saved pt :=
  Function.update_self _ _ _

theorem ctx_swapcontext_of_ne (h : i ≠ src) : (w.swapcontext src dst pt).ctx i = w.ctx i :=
  Function.update_of_ne h _ _

end World

/-- Pointers are 64 bits wide.  The record of a freed coroutine may hold anything. -/
def backend : Backend World where
  user w w' := w' = w
  create w co _ _ w' := co < 2 ^ 64 ∧ w' = w.makecontext co
  drop w co w' := w'.cur = w.cur ∧ ∀ i, i ≠ some co → w'.ctx i = w.ctx i
  switch w src dst pt w' k := w' = w.swapcontext src dst pt ∧ k = (w'.ctx dst).start

/-- **The switch of the ucontext build is lawful.** -/
def view : backend.View where
  good _ := True
  cur := World.cur
  holds w i k := (w.ctx i).start = k
  room _ co _ _ := co < 2 ^ 64
  user_keeps := by
    rintro w _ - rfl
    exact ⟨trivial, rfl, fun i k _ h => h⟩
  create_keeps := by
    rintro w _ co stack n - ⟨hco, rfl⟩
    refine ⟨trivial, rfl, w.start_makecontext hco, fun i k _ hi h => ?_⟩
    rw [w.ctx_makecontext_of_ne hi]
    exact h
  drop_keeps := by
    rintro w w' co - ⟨hcur, hctx⟩
    refine ⟨trivial, hcur, fun i k _ hi h => ?_⟩
    rw [hctx i hi]
    exact h
  switch_leads := by
    rintro w _ dst pt k _ - hne h ⟨rfl, rfl⟩
    refine ⟨by rw [w.ctx_swapcontext_of_ne hne]; exact h, trivial, rfl, ?_, fun i j hi _ h => ?_⟩
    · rw [w.ctx_swapcontext_self]
      rfl
    · rw [w.ctx_swapcontext_of_ne hi]
      exact h

theorem view_live : view.Live where
  exists_user _ := ⟨_, rfl⟩
  exists_create _ h := ⟨_, h, rfl⟩
  exists_drop {w _} _ _ := ⟨w, rfl, fun _ _ => rfl⟩
  exists_switch _ _ _ _ := ⟨_, _, rfl, rfl⟩

end CCoroutine.Ucontext
