import CCoroutine.Asm.Switch
import CCoroutine.Scheduler.Calls

/-!
# Asm — Bootstrap

The asm part of `co_create`: the frame it builds on the new stack, so that the first switch to the
coroutine returns into `co_trampoline` with the coroutine on the stack.

The top of the stack is rounded down to a multiple of 16 and the frame is the two words below it.
`co_create` does not check that they lie in the stack: they do exactly when the stack has at least
16 bytes (`frame_confined_iff`).
-/

namespace CCoroutine.Asm
open Support (Word Memory Region)
open Support.X86 (Reg)

/-- `top`: the end of the stack, rounded down to a multiple of 16. -/
def stackTop (base : Word) (size : ℕ) : Word := (base + BitVec.ofNat 64 size) &&& ~~~15#64

/-- `sp`, after the two stores. -/
def bootSp (base : Word) (size : ℕ) : Word := stackTop base size - 16

/-- The stores of `co_create` for the coroutine `co` with its `ctx` at `ctx`. -/
def bootstrap (img : Image) (m : Memory) (co ctx base : Word) (size : ℕ) : Memory :=
  let m := m.write (stackTop base size - 8) co
  let m := m.write (bootSp base size) img.coTrampolineAt
  -- `memset(&co->ctx, 0, sizeof(co->ctx))`
  let m := m.writeAll (asmCtx.map fun r => (ctx + offset r, 0))
  m.write (ctx + offset .rsp) (bootSp base size)

theorem toNat_stackTop {base : Word} {size : ℕ} (h : base.toNat + size < 2 ^ 64) :
    (stackTop base size).toNat = 16 * ((base.toNat + size) / 16) := by
  have hadd : (base + BitVec.ofNat 64 size).toNat = base.toNat + size := by
    rw [BitVec.toNat_add, BitVec.toNat_ofNat]
    omega
  rw [stackTop, Support.toNat_and_not_fifteen, hadd]

/-- The top of the stack is aligned, wherever the stack lies. -/
theorem stackTop_mod (base : Word) (size : ℕ) : (stackTop base size).toNat % 16 = 0 := by
  rw [stackTop, Support.toNat_and_not_fifteen]
  exact Nat.mul_mod_right 16 _

theorem bootSp_mod (base : Word) (size : ℕ) : (bootSp base size).toNat % 16 = 0 := by
  have h := stackTop_mod base size
  have hlt := (stackTop base size).isLt
  rw [bootSp, BitVec.toNat_sub, show (16 : Word).toNat = 16 from rfl]
  omega

/-- The second word of the frame is right above the first. -/
theorem toNat_bootSp_add_eight (base : Word) (size : ℕ) :
    (bootSp base size + 8).toNat = (bootSp base size).toNat + 8 := by
  have h := bootSp_mod base size
  have hlt := (bootSp base size).isLt
  rw [BitVec.toNat_add, show (8 : Word).toNat = 8 from rfl]
  omega

/-- **When the frame fits**: the two words below the rounded top are in a stack with an aligned
base exactly when it has 16 bytes. -/
theorem hasWord_frame_iff {stack : Region} {base : Word} (hs : stack.base = base.toNat)
    (hb : base.toNat % 16 = 0) (h : base.toNat + stack.size < 2 ^ 64) :
    stack.HasWord (stackTop base stack.size - 8) ∧ stack.HasWord (bootSp base stack.size) ↔
      16 ≤ stack.size := by
  have htop := toNat_stackTop h
  have hlt := (stackTop base stack.size).isLt
  have hbase := base.isLt
  unfold bootSp Region.HasWord
  rw [hs]
  generalize stackTop base stack.size = top at htop hlt ⊢
  rw [BitVec.toNat_sub, BitVec.toNat_sub, show (8 : Word).toNat = 8 from rfl,
    show (16 : Word).toNat = 16 from rfl]
  constructor
  · rintro ⟨-, h₁, h₂⟩
    by_contra hsize
    omega
  · intro hsize
    omega

/-- The frame that `co_create` builds for a stack of this size is in the stack: the two words it
stores, and those that the `ret` of `co_ctx_switch` and the `pop` of `co_trampoline` find by the
`rsp` it leaves in `ctx`. -/
def FrameConfined (base : Word) (size : ℕ) : Prop :=
  ∃ stack : Region, stack.base = base.toNat ∧ stack.size = size ∧
    stack.HasWord (stackTop base size - 8) ∧ stack.HasWord (bootSp base size) ∧
    ∀ img m co ctx, stack.HasWord ((bootstrap img m co ctx base size).read (ctx + offset .rsp)) ∧
      stack.HasWord ((bootstrap img m co ctx base size).read (ctx + offset .rsp) + 8)

theorem read_bootstrap_rsp (img : Image) (m : Memory) (co ctx base : Word) (size : ℕ) :
    (bootstrap img m co ctx base size).read (ctx + offset .rsp) = bootSp base size :=
  Memory.read_write_self _ _ _

theorem bootSp_add_eight (base : Word) (size : ℕ) :
    bootSp base size + 8 = stackTop base size - 8 := by
  unfold bootSp
  generalize stackTop base size = top
  bv_omega

theorem frameConfined_iff_le {base : Word} {size : ℕ} (hb : base.toNat % 16 = 0)
    (h : base.toNat + size < 2 ^ 64) : FrameConfined base size ↔ 16 ≤ size := by
  constructor
  · rintro ⟨stack, hbase, rfl, h₁, h₂, -⟩
    exact (hasWord_frame_iff hbase hb h).mp ⟨h₁, h₂⟩
  · intro hsize
    let stack : Region := ⟨base.toNat, size, h.le⟩
    have hfits : stack.HasWord _ ∧ stack.HasWord _ ↔ 16 ≤ size := hasWord_frame_iff rfl hb h
    obtain ⟨h₁, h₂⟩ := hfits.mpr hsize
    refine ⟨stack, rfl, rfl, h₁, h₂, fun img m co ctx => ?_⟩
    rw [read_bootstrap_rsp, bootSp_add_eight]
    exact ⟨h₂, h₁⟩

variable {Fn Arg : Type}

/-- **The frame stays inside the stack** exactly for the default size and for sizes of at least 16
bytes.  A smaller stack is not rejected: `co_create` returns a coroutine whenever its two
allocations succeed. -/
theorem frame_confined_iff (s : State Fn Arg) (f : Fn) (arg : Option Arg) (n : ℕ) (co : Addr)
    (base : Word) (hcount : s.all.length < maxCoroutines) (hq : s.q.size < queueCap)
    (hb : base.toNat % 16 = 0)
    (hn : base.toNat + (if n = 0 then defaultStackSize else n) < 2 ^ 64) :
    (∀ c s', s.coCreate (some f) arg n (.ok co base.toNat) = .ok (some c, s') →
      FrameConfined base (s'.mem c).stackSize) ↔ n = 0 ∨ 16 ≤ n := by
  have hsize : 16 ≤ (if n = 0 then defaultStackSize else n) ↔ n = 0 ∨ 16 ≤ n := by
    by_cases h0 : n = 0
    · simp [h0, defaultStackSize]
    · simp [h0]
  rw [← hsize, ← frameConfined_iff_le hb hn, State.coCreate_of_ok hcount hq]
  constructor
  · intro h
    simpa [State.created, State.newCo] using h co _ rfl
  · rintro h c s' he
    cases he
    simpa [State.created, State.newCo] using h

/-- A stack of 4096 bytes. -/
theorem frame_confined_page : FrameConfined 0x10000 4096 := by
  have h := (frame_confined_iff (State.init : State Unit Unit) () none 4096 10 0x10000 (by decide)
    (by decide) (by decide) (by decide)).mpr (.inr (by decide)) 10 _
    (State.coCreate_of_ok (by decide) (by decide))
  simpa [State.created, State.newCo] using h

/-- A stack of 8 bytes is accepted, and both words are stored below it. -/
theorem frame_below_stack :
    ∃ s', (State.init : State Unit Unit).coCreate (some ()) none 8 (.ok 10 0x10000) =
        .ok (some 10, s') ∧ (s'.mem 10).stackSize = 8 ∧
      ¬ (⟨0x10000, 8, by decide⟩ : Region).HasWord (stackTop 0x10000 8 - 8) ∧
      ¬ (⟨0x10000, 8, by decide⟩ : Region).HasWord (bootSp 0x10000 8) :=
  ⟨_, State.coCreate_of_ok (by decide) (by decide), rfl, by decide, by decide⟩

end CCoroutine.Asm
