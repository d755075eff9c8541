import CCoroutine.Asm.Contexts
import CCoroutine.Support.Runs

/-!
# Asm — Faithful

Every context but the executing one is intact in every reachable configuration (`Inv`).  So
`co_ctx_switch` is a coroutine switch (`switch_faithful`): it continues a context where it was
suspended, with the stack pointer and the callee-saved registers it had there, and starts a new one
in `co_entry` with its coroutine.

On that first entry the stack pointer is the rounded top of the stack itself, since `co_trampoline`
jumps to `co_entry` and pushes no return address: a multiple of 16, where the ABI asks for a
multiple of 16 less 8 (`entry_misaligned`).
-/

namespace CCoroutine.Asm
open Support (Word Memory Region Reachable)
open Support.X86 (Reg Machine)

variable {ι : Type} {img : Image} {c c' : Config ι} {t : ι} {p q : Place} {next : Word}

/-! ### One switch -/

namespace Config.CallSite

/-- The memory after the saves. -/
def saved (c : Config ι) (p : Place) (next : Word) : Memory :=
  savedMem (c.m.mem.write (c.m.reg .rsp - 8) next) p.record (Saved.pushed ⟨next, c.m.reg⟩)

/-- Stores to the stack and the record of the executing context keep the others. -/
theorem saved_of_apart (h : c.CallSite img t p q next) {r : Region} (hctx : r.Apart p.ctx)
    (hstack : r.Apart p.stack) {x : Word} (hx : r.Has x) : saved c p next x = c.m.mem x :=
  (savedMem_of_apart hctx hx _ _).trans (hstack.write_eq h.room hx _ _)

/-- The executing context, once its registers are saved. -/
theorem intact_source (h : c.CallSite img t p q next) :
    Intact img (saved c p next) p (.suspended ⟨next, c.m.reg⟩) := by
  refine ⟨fun r hr => read_savedMem _ p _ hr, ?_, h.room⟩
  have hkeep : (saved c p next).read (c.m.reg .rsp - 8) =
      (c.m.mem.write (c.m.reg .rsp - 8) next).read (c.m.reg .rsp - 8) :=
    Memory.read_of_region (fun x hx => savedMem_of_apart p.own.symm hx _ _) h.room
  rw [hkeep, Memory.read_write_self]

/-- The machine after the call and `co_ctx_switch`: `rsp` and the callee-saved registers come from
the record of the target, and execution goes on at the word that its `rsp` points to. -/
def arrived (c : Config ι) (p q : Place) (next : Word) : Machine where
  rip := (saved c p next).read ((saved c p next).read (q.field .rsp))
  reg := Function.update (restoredReg (saved c p next) q.record (Saved.pushed ⟨next, c.m.reg⟩)) .rsp
    ((saved c p next).read (q.field .rsp) + 8)
  mem := saved c p next

theorem arrived_reg {r : Reg} (hr : r ∈ asmCtx) (hne : r ≠ .rsp) :
    (arrived c p q next).reg r = (saved c p next).read (q.field r) := by
  simp only [arrived, Function.update_of_ne hne, restoredReg, if_pos hr]
  rfl

theorem run_call (h : c.CallSite img t p q next) :
    c.m.run img.code 16 = some (arrived c p q next) := by
  rw [Machine.run_succ h.call 15, run_switch img (s := c.m.exec next (.call img.coCtxSwitchAt)) rfl]
  have hmem : savedMem (c.m.mem.write (c.m.reg .rsp - 8) next) (c.m.reg .rdi)
      (Function.update c.m.reg .rsp (c.m.reg .rsp - 8)) = saved c p next := by
    rw [h.rdi]
    rfl
  have hrsp : restoredReg (saved c p next) q.record (Saved.pushed ⟨next, c.m.reg⟩) .rsp =
      (saved c p next).read (q.field .rsp) := if_pos (by decide)
  simp only [switched, Machine.exec, Function.update_of_ne (show Reg.rdi ≠ .rsp by decide),
    Function.update_of_ne (show Reg.rsi ≠ .rsp by decide), hmem, h.rsi]
  rw [← Saved.pushed.eq_1 ⟨next, c.m.reg⟩, hrsp]
  rfl

/-- **A context that was suspended continues** at its return address, with the registers it had. -/
theorem arrived_suspended {v : Saved} (hq : Intact img (saved c p next) q (.suspended v)) :
    (arrived c p q next).rip = v.ret ∧ ∀ r ∈ asmCtx, (arrived c p q next).reg r = v.reg r := by
  obtain ⟨hrec, hret, -⟩ := hq
  have hrsp : (saved c p next).read (q.field .rsp) = v.reg .rsp - 8 := hrec .rsp (by decide)
  refine ⟨?_, fun r hr => ?_⟩
  · rw [arrived, hrsp, hret]
  · by_cases e : r = .rsp
    · subst e
      simp only [arrived, Function.update_self, hrsp]
      exact sub_add_cancel _ _
    · rw [arrived_reg hr e, hrec r hr, Saved.pushed, Function.update_of_ne e]

/-- **A new context starts** in `co_entry`, with its coroutine in `rdi` and `rsp` at the top of its
stack. -/
theorem run_fresh (h : c.CallSite img t p q next) {co : Word}
    (hq : Intact img (saved c p next) q (.fresh co)) :
    ∃ m, c.m.run img.code 18 = some m ∧ m.rip = img.coEntryAt ∧ m.reg .rdi = co ∧
      m.reg .rsp = stackTop q.base q.stack.size ∧ m.mem = saved c p next := by
  obtain ⟨hrsp, htramp, hco, -, -⟩ := hq
  have hrip : (arrived c p q next).rip = img.coTrampolineAt := by rw [arrived, hrsp, htramp]
  have hsp : (arrived c p q next).reg .rsp = bootSp q.base q.stack.size + 8 := by
    simp only [arrived, Function.update_self, hrsp]
  refine ⟨_, (Machine.run_add h.run_call 2).trans (run_trampoline img hrip), rfl, ?_, ?_, rfl⟩
  · simp only [started, Function.update_self, hsp]
    exact hco
  · simp only [started, Function.update_of_ne (show Reg.rsp ≠ .rdi by decide),
      Function.update_self, hsp, bootSp_add_eight]
    exact sub_add_cancel _ _

end Config.CallSite

/-- Every context that does not execute is intact. -/
structure Inv (img : Image) (c : Config ι) : Prop where
  exists_cur : ∃ p, c.layout.place c.cur = some p
  intact : ∀ i p, i ≠ c.cur → c.layout.place i = some p → Intact img c.m.mem p (c.status i)

theorem inv_of_start (h : c.Start) : Inv img c := by
  refine ⟨Option.ne_none_iff_exists'.mp ((h c.cur).mpr rfl), fun i p hi hp => ?_⟩
  exact absurd ((h i).mp (by rw [hp]; simp)) hi

namespace Inv

variable [DecidableEq ι]

/-- After the saves all contexts are intact, the one that called included. -/
theorem intact_saved (hinv : Inv img c) (h : c.CallSite img t p q next) {i : ι} {o : Place}
    (ho : c.layout.place i = some o) :
    Intact img (Config.CallSite.saved c p next) o (c.suspend next i) := by
  by_cases hi : i = c.cur
  · subst hi
    rw [h.source] at ho
    cases ho
    rw [Config.suspend, Function.update_self]
    exact h.intact_source
  · have hapart := c.layout.apart i c.cur o p hi ho h.source
    rw [Config.suspend, Function.update_of_ne hi]
    exact (hinv.intact i o hi ho).congr_region
      (fun x hx => h.saved_of_apart hapart.ctx_ctx hapart.ctx_stack hx)
      fun x hx => h.saved_of_apart hapart.stack_ctx hapart.stack_stack hx

/-- What a switch leads to. -/
theorem run_switch (hinv : Inv img c) (h : c.CallSite img t p q next) :
    ∃ m, c.m.run img.code (c.suspend next t).length = some m ∧
      m.mem = Config.CallSite.saved c p next ∧
      (∀ v, c.suspend next t = .suspended v → m.rip = v.ret ∧ ∀ r ∈ asmCtx, m.reg r = v.reg r) ∧
      ∀ co, c.suspend next t = .fresh co → m.rip = img.coEntryAt ∧ m.reg .rdi = co ∧
        m.reg .rsp = stackTop q.base q.stack.size := by
  have hq := hinv.intact_saved h h.target
  generalize c.suspend next t = st at hq ⊢
  cases st with
  | suspended v =>
      refine ⟨_, h.run_call, rfl, ?_, nofun⟩
      rintro w ⟨⟩
      exact Config.CallSite.arrived_suspended hq
  | fresh co =>
      obtain ⟨m, hrun, hrip, hrdi, hrsp, hmem⟩ := h.run_fresh hq
      refine ⟨m, hrun, hmem, nofun, ?_⟩
      rintro co' ⟨⟩
      exact ⟨hrip, hrdi, hrsp⟩

/-- **Every move keeps the other contexts intact.** -/
theorem move {l : Label ι} (hinv : Inv img c) (h : Move img c l c') : Inv img c' := by
  obtain ⟨o, ho⟩ := hinv.exists_cur
  cases h with
  | user hkeep =>
      refine ⟨⟨o, ho⟩, fun i p hi hp => ?_⟩
      obtain ⟨hctx, hstack⟩ := hkeep i p hi hp
      exact (hinv.intact i p hi hp).congr hctx hstack
  | @create i p co hnone hp hfit =>
      have hcur : c.cur ≠ i := fun e => by rw [e, hnone] at ho; cases ho
      refine ⟨⟨o, (c.layout.place_add_of_ne hp hcur).trans ho⟩, fun j r hj hr => ?_⟩
      by_cases e : j = i
      · subst e
        obtain rfl : p = r := Option.some.inj ((c.layout.place_add_self hp).symm.trans hr)
        simp only [Function.update_self]
        exact intact_bootstrap img c.m.mem co hfit
      · have hr' : c.layout.place j = some r := (c.layout.place_add_of_ne hp e).symm.trans hr
        have hapart := (hp j r e hr').symm
        simp only [Function.update_of_ne e]
        exact (hinv.intact j r hj hr').congr_region
          (fun x hx => bootstrap_of_apart hapart.ctx_ctx hapart.ctx_stack hfit hx _ co)
          fun x hx => bootstrap_of_apart hapart.stack_ctx hapart.stack_stack hfit hx _ co
  | @drop i hi =>
      refine ⟨⟨o, (c.layout.place_remove_of_ne hi.symm).trans ho⟩, fun j r hj hr => ?_⟩
      exact hinv.intact j r hj (Layout.place_of_remove hr)
  | @switch t p q next m hcall hrun =>
      obtain ⟨m', hrun', hmem, -⟩ := hinv.run_switch hcall
      obtain rfl : m = m' := Option.some.inj (hrun.symm.trans hrun')
      refine ⟨⟨q, hcall.target⟩, fun j r _ hr => ?_⟩
      rw [hmem]
      exact hinv.intact_saved hcall hr

theorem of_reachable {c₀ : Config ι} (h₀ : c₀.Start) (h : Reachable (Move img) c₀ c) : Inv img c :=
  h.invariant (inv_of_start h₀) fun _ _ _ => move

end Inv

/-! ### Main results -/

variable [DecidableEq ι]

/-- **`co_ctx_switch` is a coroutine switch.**  After any sequence of moves, a switch to a context
that was suspended continues it behind its own call, with the stack pointer and the callee-saved
registers it had there; a switch to one that `co_create` has built for `co` reaches `co_entry` with
`co` as its argument. -/
theorem switch_faithful {c₀ : Config ι} (h₀ : c₀.Start) (h : Reachable (Move img) c₀ c)
    (hcall : c.CallSite img t p q next) :
    ∃ m, c.m.run img.code (c.suspend next t).length = some m ∧
      (∀ v, c.suspend next t = .suspended v → m.rip = v.ret ∧ ∀ r ∈ asmCtx, m.reg r = v.reg r) ∧
      ∀ co, c.suspend next t = .fresh co → m.rip = img.coEntryAt ∧ m.reg .rdi = co := by
  obtain ⟨m, hrun, -, hsusp, hfresh⟩ := (Inv.of_reachable h₀ h).run_switch hcall
  exact ⟨m, hrun, hsusp, fun co hco => ⟨(hfresh co hco).1, (hfresh co hco).2.1⟩⟩

/-- Instructions of one byte each: `co_ctx_switch`, `co_trampoline`, and a call of the former. -/
def pingImage : Image where
  code a := (coCtxSwitch ++ coTrampoline 18 ++ [.call 0])[a.toNat]?.map fun i => (i, a + 1)
  coCtxSwitchAt := 0
  coTrampolineAt := 15
  coEntryAt := 18
  switch_listed := ⟨_, _, rfl, _, rfl, _, rfl, _, rfl, _, rfl, _, rfl, _, rfl, _, rfl, _, rfl,
    _, rfl, _, rfl, _, rfl, _, rfl, _, rfl, _, rfl, rfl⟩
  trampoline_listed := ⟨_, _, rfl, _, rfl, rfl⟩

/-- A record, and a page for the stack above it. -/
def pingPlace (record : Word) (base : ℕ) (h : record.toNat + asmCtxSize ≤ base)
    (hb : base + 4096 ≤ 2 ^ 64) : Place where
  record := record
  stack := ⟨base, 4096, hb⟩
  record_le := h.trans (Nat.le_of_add_right_le hb)
  own := Region.apart_of_le h

def pingMain : Place := pingPlace 0x1000 0x2000 (by decide) (by decide)

def pingTask : Place := pingPlace 0x3000 0x4000 (by decide) (by decide)

theorem pingTask_apart : pingTask.Apart pingMain where
  ctx_ctx := (Region.apart_of_le (by decide)).symm
  ctx_stack := (Region.apart_of_le (by decide)).symm
  stack_ctx := (Region.apart_of_le (by decide)).symm
  stack_stack := (Region.apart_of_le (by decide)).symm

/-- The registers at a call of `co_ctx_switch`. -/
def pingReg (src dst sp : Word) : Reg → Word
  | .rdi => src
  | .rsi => dst
  | .rsp => sp
  | _ => 7

/-- The context `false` executes; it will call `co_ctx_switch` with the record of the context
`true`, which is not there yet. -/
def pingStart : Config Bool where
  m := { rip := 17, reg := pingReg 0x1000 0x3000 0x2ff8, mem := fun _ => 0 }
  cur := false
  layout := (⟨fun _ => none, nofun⟩ : Layout Bool).add false pingMain nofun
  status _ := .fresh 0

theorem pingStart_start : pingStart.Start := by
  intro i
  cases i <;> simp [pingStart, Layout.add]

/-- `co_create` has built the context `true` for the coroutine 42. -/
def pingCreated : Config Bool :=
  { pingStart with
    m := { pingStart.m with
      mem := bootstrap pingImage pingStart.m.mem 42 pingTask.record pingTask.base 4096 }
    layout := pingStart.layout.add true pingTask fun j q hj hq => by
      cases j with
      | true => exact absurd rfl hj
      | false => cases hq; exact pingTask_apart
    status := Function.update pingStart.status true (.fresh 42) }

theorem pingCreated_reachable : Reachable (Move pingImage) pingStart pingCreated :=
  ⟨[.create true 42], .one (.create 42 rfl _ ⟨by decide, by decide⟩)⟩

theorem pingCreated_callSite : pingCreated.CallSite pingImage true pingMain pingTask 18 where
  source := rfl
  target := rfl
  call := rfl
  rdi := rfl
  rsi := rfl
  room := by decide

/-- The context `true`, as `m` has started it, is about to switch back. -/
def pingBack (m : Machine) : Config Bool :=
  { pingCreated with
    m := { m with rip := 17, reg := pingReg 0x3000 0x1000 0x4ff8 }
    cur := true
    status := pingCreated.suspend 18 }

theorem pingBack_reachable {m : Machine} (h : pingCreated.m.run pingImage.code 18 = some m) :
    Reachable (Move pingImage) pingStart (pingBack m) :=
  (pingCreated_reachable.next (.switch pingCreated_callSite h)).next (.user fun _ _ _ _ =>
    ⟨fun _ _ => rfl, fun _ _ _ => rfl⟩)

theorem pingBack_callSite (m : Machine) :
    (pingBack m).CallSite pingImage false pingTask pingMain 18 where
  source := rfl
  target := rfl
  call := rfl
  rdi := rfl
  rsi := rfl
  room := (by decide : pingTask.stack.HasWord (0x4ff8 - 8))

/-- The task is started, and then the context that called it continues. -/
theorem switch_faithful_ping : ∃ m m', pingCreated.m.run pingImage.code 18 = some m ∧
    m.rip = pingImage.coEntryAt ∧ m.reg .rdi = 42 ∧
    (pingBack m).m.run pingImage.code 16 = some m' ∧ m'.rip = 18 ∧
    m'.reg .rsp = 0x2ff8 ∧ m'.reg .rbp = 7 := by
  obtain ⟨m, hrun, -, hfresh⟩ :=
    switch_faithful pingStart_start pingCreated_reachable pingCreated_callSite
  obtain ⟨hrip, hrdi⟩ := hfresh 42 rfl
  obtain ⟨m', hback, hsusp, -⟩ :=
    switch_faithful pingStart_start (pingBack_reachable hrun) (pingBack_callSite m)
  obtain ⟨hret, hreg⟩ := hsusp _ rfl
  exact ⟨m, m', hrun, hrip, hrdi, hback, hret, hreg .rsp (by decide), hreg .rbp (by decide)⟩

/-- **The stack is not aligned on the first entry.**  Wherever the stack lies and whatever its size,
`rsp + 8` is not a multiple of 16 at the first instruction of `co_entry`. -/
theorem entry_misaligned {c₀ : Config ι} (h₀ : c₀.Start) (h : Reachable (Move img) c₀ c)
    (hcall : c.CallSite img t p q next) {co : Word} (hco : c.suspend next t = .fresh co) :
    ∃ m, c.m.run img.code 18 = some m ∧ m.rip = img.coEntryAt ∧
      ¬ 16 ∣ (m.reg .rsp + 8).toNat := by
  obtain ⟨m, hrun, -, -, hfresh⟩ := (Inv.of_reachable h₀ h).run_switch hcall
  obtain ⟨hrip, -, hrsp⟩ := hfresh co hco
  rw [hco] at hrun
  refine ⟨m, hrun, hrip, ?_⟩
  have hmod := stackTop_mod q.base q.stack.size
  rw [hrsp, BitVec.toNat_add, show (8 : Word).toNat = 8 from rfl]
  omega

theorem entry_misaligned_ping : ∃ m, pingCreated.m.run pingImage.code 18 = some m ∧
    m.rip = pingImage.coEntryAt ∧ ¬ 16 ∣ (m.reg .rsp + 8).toNat :=
  entry_misaligned pingStart_start pingCreated_reachable pingCreated_callSite rfl

/-- A stack of 4096 bytes at `0x4000`: `co_entry` starts with `rsp` at `0x5000`. -/
theorem entry_rsp_page : pingTask.stack.base = 0x4000 ∧ pingTask.stack.size = 4096 ∧
    (pingCreated.m.run pingImage.code 18).map (fun m => (m.rip, m.reg .rsp)) =
      some (pingImage.coEntryAt, 0x5000) ∧ ¬ 16 ∣ (0x5000 + 8 : Word).toNat := by
  decide +kernel

end CCoroutine.Asm
