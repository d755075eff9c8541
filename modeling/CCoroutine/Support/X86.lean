import CCoroutine.Support.Memory

/-!
# Support — X86

A machine for straight-line x86-64 code that moves words between registers and memory, calls,
jumps and returns.  The code is given by a map from addresses to instructions, apart from the data
memory.

`Listed code a is b` says that the instructions `is` stand one after another from `a` to `b`.
Instructions that do not jump are executed one after another (`run_listed`), so that the effect of
a block is computed without the addresses of its instructions.
-/

namespace Support.X86

/-- The registers of the model: the stack pointer, the callee-saved ones and two argument
registers. -/
inductive Reg where
  | rsp
  | rbp
  | rbx
  | r12
  | r13
  | r14
  | r15
  | rdi
  | rsi
  deriving DecidableEq, Repr

inductive Instr where
  /-- `movq %src, off(%base)` -/
  | store (src : Reg) (off : Word) (base : Reg)
  /-- `movq off(%base), %dst` -/
  | load (off : Word) (base dst : Reg)
  | pop (dst : Reg)
  | ret
  | jmp (target : Word)
  | call (target : Word)

/-- The instruction at an address, and the address after it. -/
abbrev Text := Word → Option (Instr × Word)

structure Machine where
  rip : Word
  reg : Reg → Word
  mem : Memory

namespace Machine

/-- Execute an instruction; `next` is the address after it. -/
def exec (s : Machine) (next : Word) : Instr → Machine
  | .store src off base =>
      { s with rip := next, mem := s.mem.write (s.reg base + off) (s.reg src) }
  | .load off base dst =>
      { s with rip := next, reg := Function.update s.reg dst (s.mem.read (s.reg base + off)) }
  | .pop dst =>
      { s with
        rip := next
        reg := Function.update (Function.update s.reg .rsp (s.reg .rsp + 8)) dst
          (s.mem.read (s.reg .rsp)) }
  | .ret =>
      { s with
        rip := s.mem.read (s.reg .rsp)
        reg := Function.update s.reg .rsp (s.reg .rsp + 8) }
  | .jmp target => { s with rip := target }
  | .call target =>
      { rip := target
        reg := Function.update s.reg .rsp (s.reg .rsp - 8)
        mem := s.mem.write (s.reg .rsp - 8) next }

def step (code : Text) (s : Machine) : Option Machine :=
  (code s.rip).map fun p => s.exec p.2 p.1

/-- `n` instructions. -/
def run (code : Text) : ℕ → Machine → Option Machine
  | 0, s => some s
  | n + 1, s => (s.step code).bind (run code n)

variable {code : Text} {s s' : Machine}

theorem run_succ {i : Instr} {next : Word} (h : code s.rip = some (i, next)) (n : ℕ) :
    run code (n + 1) s = run code n (s.exec next i) := by
  simp [run, step, h]

theorem run_add {m : ℕ} (h : run code m s = some s') (n : ℕ) :
    run code (m + n) s = run code n s' := by
  induction m generalizing s with
  | zero => cases h; rw [Nat.zero_add]
  | succ m ih =>
      obtain ⟨s₁, hs, hr⟩ := Option.bind_eq_some_iff.mp h
      rw [Nat.add_right_comm, run, hs, Option.bind_some]
      exact ih hr

end Machine

/-! ### Blocks -/

/-- The instructions stand one after another from `a` to `b`. -/
def Listed (code : Text) : Word → List Instr → Word → Prop
  | a, [], b => a = b
  | a, i :: is, b => ∃ c, code a = some (i, c) ∧ Listed code c is b

theorem Listed.append {code : Text} {is js : List Instr} {a c : Word} :
    Listed code a (is ++ js) c ↔ ∃ b, Listed code a is b ∧ Listed code b js c := by
  induction is generalizing a with
  | nil => simp [Listed]
  | cons i is ih => simp only [List.cons_append, Listed, ih]; tauto

/-- Execution goes on with the next instruction. -/
def Instr.straight : Instr → Bool
  | .store _ _ _ | .load _ _ _ | .pop _ => true
  | .ret | .jmp _ | .call _ => false

namespace Machine

/-- The effect of a block on the registers and the memory. -/
def execAll (s : Machine) (is : List Instr) : Machine := is.foldl (fun s i => s.exec s.rip i) s

/-- What a straight instruction does does not depend on where it stands. -/
theorem exec_with_rip (s : Machine) (a next : Word) {i : Instr} (h : i.straight = true) :
    ({ s with rip := a } : Machine).exec next i = { s.exec s.rip i with rip := next } := by
  cases i with
  | store | load | pop => rfl
  | ret | jmp | call => cases h

/-- **A block is executed instruction by instruction.** -/
theorem run_listed {code : Text} {is : List Instr} {b : Word} :
    ∀ (s : Machine) (a : Word), (∀ i ∈ is, i.straight = true) → Listed code a is b →
      run code is.length { s with rip := a } = some { s.execAll is with rip := b } := by
  induction is with
  | nil =>
      rintro s a - rfl
      rfl
  | cons i is ih =>
      rintro s a hi ⟨c, hc, hl⟩
      have hstraight := hi i List.mem_cons_self
      rw [List.length_cons, run_succ (s := { s with rip := a }) hc, exec_with_rip _ _ _ hstraight]
      exact ih (s.exec s.rip i) c (fun j hj => hi j (List.mem_cons_of_mem _ hj)) hl

/-- Registers stored at offsets from one base register. -/
theorem execAll_stores (off : Reg → Word) (base : Reg) (rs : List Reg) :
    ∀ s : Machine, s.execAll (rs.map fun r => .store r (off r) base) =
      { s with mem := s.mem.writeAll (rs.map fun r => (s.reg base + off r, s.reg r)) } := by
  induction rs with
  | nil => exact fun s => rfl
  | cons r rs ih =>
      intro s
      exact ih (s.exec s.rip (.store r (off r) base))

/-- Registers loaded from offsets from a base register that is not among them. -/
theorem execAll_loads (off : Reg → Word) {base : Reg} {rs : List Reg} (hb : base ∉ rs) :
    ∀ s : Machine, s.execAll (rs.map fun r => .load (off r) base r) =
      { s with reg := fun r => if r ∈ rs then s.mem.read (s.reg base + off r) else s.reg r } := by
  induction rs with
  | nil =>
      intro s
      simp [execAll]
  | cons r rs ih =>
      intro s
      have hne : base ≠ r := fun e => hb (e ▸ List.mem_cons_self)
      have hb' : base ∉ rs := fun h => hb (List.mem_cons_of_mem _ h)
      refine (ih hb' (s.exec s.rip (.load (off r) base r))).trans ?_
      simp only [exec, Function.update_of_ne hne]
      congr 1
      funext q
      by_cases hq : q ∈ rs
      · simp [hq]
      · by_cases e : q = r
        · subst e; simp [hq]
        · simp [hq, e]

end Machine

end Support.X86
