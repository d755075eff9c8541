import CCoroutine.Support.X86

/-!
# Asm — Switch

`src/asm_ctx.S`, and the struct `AsmCtx` of `src/coroutine.c` that it shares with the C code: the
listings of `co_ctx_switch` and `co_trampoline`, and what they compute (`run_switch`,
`run_trampoline`).

The C code knows `AsmCtx` by its fields, the listing by byte offsets.  They agree
(`coCtxSwitch_eq`): the listing stores each field of `*from` at its place in the struct, loads each
field of `*to` from there, and returns.
-/

namespace CCoroutine.Asm
open Support (Word Memory Region)
open Support.X86 (Reg Instr Text Machine Listed)

/-! ### The struct -/

/-- The fields of `AsmCtx`, in the order of their declaration. -/
def asmCtx : List Reg := [.rsp, .rbp, .rbx, .r12, .r13, .r14, .r15]

/-- The offset of a field: each is a `uint64_t`. -/
def offset (r : Reg) : Word := 8 * BitVec.ofNat 64 (asmCtx.idxOf r)

/-- `sizeof(AsmCtx)`. -/
def asmCtxSize : ℕ := 56

/-! ### The listings -/

def coCtxSwitch : List Instr :=
  [ .store .rsp 0x00 .rdi,
    .store .rbp 0x08 .rdi,
    .store .rbx 0x10 .rdi,
    .store .r12 0x18 .rdi,
    .store .r13 0x20 .rdi,
    .store .r14 0x28 .rdi,
    .store .r15 0x30 .rdi,
    .load 0x00 .rsi .rsp,
    .load 0x08 .rsi .rbp,
    .load 0x10 .rsi .rbx,
    .load 0x18 .rsi .r12,
    .load 0x20 .rsi .r13,
    .load 0x28 .rsi .r14,
    .load 0x30 .rsi .r15,
    .ret ]

/-- `coEntry` is the address of `co_entry`. -/
def coTrampoline (coEntry : Word) : List Instr :=
  [ .pop .rdi,
    .jmp coEntry ]

/-- The code of the program, wherever the linker has put it. -/
structure Image where
  code : Text
  coCtxSwitchAt : Word
  coTrampolineAt : Word
  coEntryAt : Word
  switch_listed : ∃ b, Listed code coCtxSwitchAt coCtxSwitch b
  trampoline_listed : ∃ b, Listed code coTrampolineAt (coTrampoline coEntryAt) b

def saves : List Instr := asmCtx.map fun r => .store r (offset r) .rdi

def restores : List Instr := asmCtx.map fun r => .load (offset r) .rsi r

/-- **The offsets of the listing are those of the struct**, field by field. -/
theorem coCtxSwitch_eq : coCtxSwitch = saves ++ (restores ++ [.ret]) := rfl

/-! ### What they compute -/

/-- The memory after the saves: `reg` in the record at `p`. -/
def savedMem (m : Memory) (p : Word) (reg : Reg → Word) : Memory :=
  m.writeAll (asmCtx.map fun r => (p + offset r, reg r))

/-- The registers after the restores, from the record at `p`. -/
def restoredReg (m : Memory) (p : Word) (reg : Reg → Word) : Reg → Word :=
  fun r => if r ∈ asmCtx then m.read (p + offset r) else reg r

/-- The machine after `co_ctx_switch`. -/
def switched (s : Machine) : Machine :=
  let m := savedMem s.mem (s.reg .rdi) s.reg
  let reg := restoredReg m (s.reg .rsi) s.reg
  { rip := m.read (reg .rsp), reg := Function.update reg .rsp (reg .rsp + 8), mem := m }

theorem saves_straight : ∀ i ∈ saves, i.straight = true := by decide

theorem restores_straight : ∀ i ∈ restores, i.straight = true := by decide

/-- **What `co_ctx_switch` does**, from its first instruction on. -/
theorem run_switch (img : Image) {s : Machine} (hs : s.rip = img.coCtxSwitchAt) :
    s.run img.code 15 = some (switched s) := by
  obtain ⟨b, hlist⟩ := img.switch_listed
  rw [coCtxSwitch_eq, Listed.append] at hlist
  obtain ⟨b₁, hsaves, hlist⟩ := hlist
  obtain ⟨b₂, hrestores, b₃, hret, -⟩ := Listed.append.mp hlist
  have h₁ := Machine.run_listed s _ saves_straight hsaves
  rw [← hs] at h₁
  have h₂ := Machine.run_listed (s.execAll saves) b₁ restores_straight hrestores
  have hrun := Machine.run_add h₁ 8
  rw [show (8 : ℕ) = restores.length + 1 from rfl, Machine.run_add h₂ 1] at hrun
  refine hrun.trans ?_
  rw [Machine.run_succ hret, saves, Machine.execAll_stores, restores,
    Machine.execAll_loads offset (by decide)]
  rfl

/-- The machine in `co_entry`, after `co_trampoline`. -/
def started (img : Image) (s : Machine) : Machine :=
  { s with
    rip := img.coEntryAt
    reg := Function.update (Function.update s.reg .rsp (s.reg .rsp + 8)) .rdi
      (s.mem.read (s.reg .rsp)) }

/-- **What `co_trampoline` does**: `co_entry` gets the word on the stack. -/
theorem run_trampoline (img : Image) {s : Machine} (hs : s.rip = img.coTrampolineAt) :
    s.run img.code 2 = some (started img s) := by
  obtain ⟨b, c, hpop, d, hjmp, -⟩ := img.trampoline_listed
  rw [← hs] at hpop
  rw [Machine.run_succ hpop, Machine.run_succ hjmp]
  rfl

end CCoroutine.Asm
