import CCoroutine.Asm.Bootstrap
import CCoroutine.Asm.Layout

/-!
# Asm — Contexts

Any number of contexts on one machine.  One of them executes; it may change registers and memory
at will, but for the records of the others and their stacks from the saved `rsp` upwards
(`Config.Keeps`).  It may build new contexts as `co_create` does, discard others, and call
`co_ctx_switch` (`Move`).

What a context left behind when it was suspended, or what `co_create` built for it (`Intact`), does
not depend on anything that the executing context may write (`Intact.congr`).
-/

namespace CCoroutine.Asm
open Support (Word Memory Region)
open Support.X86 (Reg Machine)

/-! ### Switching -/

/-- What a context was doing when it called `co_ctx_switch`: the return address of the call, and
the registers just before it. -/
structure Saved where
  ret : Word
  reg : Reg → Word

/-- What a context that does not execute has been through last. -/
inductive Status where
  /-- `co_create` has built it, for the coroutine at `co`. -/
  | fresh (co : Word)
  | suspended (v : Saved)

/-- The instructions of a switch: the call and `co_ctx_switch`, and `co_trampoline` when the target
is new. -/
def Status.length : Status → ℕ
  | .suspended _ => 16
  | .fresh _ => 18

structure Config (ι : Type) where
  m : Machine
  /-- The context that executes. -/
  cur : ι
  layout : Layout ι
  /-- Of the others. -/
  status : ι → Status

/-- The start and the size of a stack, as `co_create` has them. -/
def Place.base (p : Place) : Word := BitVec.ofNat 64 p.stack.base

/-- The stack is large enough for the frame. -/
def Place.Fits (p : Place) : Prop :=
  p.stack.HasWord (stackTop p.base p.stack.size - 8) ∧ p.stack.HasWord (bootSp p.base p.stack.size)

namespace Config

variable {ι : Type} [DecidableEq ι]

/-- The executing context may leave the memory as `mem`: the record of another context is as it
was, and so is its stack at or above its saved `rsp`. -/
def Keeps (c : Config ι) (mem : Memory) : Prop :=
  ∀ i p, i ≠ c.cur → c.layout.place i = some p →
    (∀ x, p.ctx.Has x → mem x = c.m.mem x) ∧
    ∀ x, p.stack.Has x → (c.m.mem.read (p.field .rsp)).toNat ≤ x.toNat → mem x = c.m.mem x

/-- The executing context, at `p`, is about to call `co_ctx_switch` with its own record and that
of the context `t`, at `q`. -/
structure CallSite (img : Image) (c : Config ι) (t : ι) (p q : Place) (next : Word) : Prop where
  source : c.layout.place c.cur = some p
  target : c.layout.place t = some q
  call : img.code c.m.rip = some (.call img.coCtxSwitchAt, next)
  rdi : c.m.reg .rdi = p.record
  rsi : c.m.reg .rsi = q.record
  room : p.stack.HasWord (c.m.reg .rsp - 8)

/-- The executing context has been suspended by a call with return address `next`. -/
def suspend (c : Config ι) (next : Word) : ι → Status :=
  Function.update c.status c.cur (.suspended ⟨next, c.m.reg⟩)

end Config

inductive Label (ι : Type) where
  | user
  | create (i : ι) (co : Word)
  | drop (i : ι)
  | switch (t : ι)

variable {ι : Type} [DecidableEq ι]

/-- What can happen. -/
inductive Move (img : Image) : Config ι → Label ι → Config ι → Prop where
  /-- Code between two switches. -/
  | user {c : Config ι} {m : Machine} (h : c.Keeps m.mem) : Move img c .user { c with m := m }
  /-- `co_create` builds a context in new memory. -/
  | create {c : Config ι} {i : ι} {p : Place} (co : Word) (hi : c.layout.place i = none)
      (hp : ∀ j q, j ≠ i → c.layout.place j = some q → p.Apart q) (hfit : p.Fits) :
      Move img c (.create i co) { c with
        m := { c.m with mem := bootstrap img c.m.mem co p.record p.base p.stack.size }
        layout := c.layout.add i p hp
        status := Function.update c.status i (.fresh co) }
  /-- `co_free`. -/
  | drop {c : Config ι} {i : ι} (hi : i ≠ c.cur) :
      Move img c (.drop i) { c with layout := c.layout.remove i }
  | switch {c : Config ι} {t : ι} {p q : Place} {next : Word} {m : Machine}
      (h : c.CallSite img t p q next)
      (hrun : c.m.run img.code (c.suspend next t).length = some m) :
      Move img c (.switch t) { c with m := m, cur := t, status := c.suspend next }

/-- Only the executing context exists. -/
def Config.Start (c : Config ι) : Prop := ∀ i, c.layout.place i ≠ none ↔ i = c.cur

/-! ### What stays intact -/

/-- The registers in the record of a suspended context: the call has pushed the return address. -/
def Saved.pushed (v : Saved) : Reg → Word := Function.update v.reg .rsp (v.reg .rsp - 8)

/-- The memory holds what the context at `p` needs to go on. -/
def Intact (img : Image) (mem : Memory) (p : Place) : Status → Prop
  | .fresh co =>
      mem.read (p.field .rsp) = bootSp p.base p.stack.size ∧
      mem.read (bootSp p.base p.stack.size) = img.coTrampolineAt ∧
      mem.read (bootSp p.base p.stack.size + 8) = co ∧
      p.stack.HasWord (bootSp p.base p.stack.size) ∧
      p.stack.HasWord (bootSp p.base p.stack.size + 8)
  | .suspended v =>
      (∀ r ∈ asmCtx, mem.read (p.field r) = v.pushed r) ∧
      mem.read (v.reg .rsp - 8) = v.ret ∧ p.stack.HasWord (v.reg .rsp - 8)

/-- A word of the stack that starts at or above `sp`. -/
theorem read_stack_congr {mem mem' : Memory} {p : Place} {sp a : Word}
    (h : ∀ x, p.stack.Has x → sp.toNat ≤ x.toNat → mem' x = mem x) (ha : p.stack.HasWord a)
    (hle : sp.toNat ≤ a.toNat) : mem'.read a = mem.read a := by
  refine Memory.read_congr fun x hx => h x (ha.has hx) ?_
  have := Region.toNat_of_sub_lt (ha.2.trans p.stack.le) hx
  omega

/-- **What the executing context may not write is enough.** -/
theorem Intact.congr {img : Image} {mem mem' : Memory} {p : Place} {st : Status}
    (h : Intact img mem p st) (hctx : ∀ x, p.ctx.Has x → mem' x = mem x)
    (hstack : ∀ x, p.stack.Has x → (mem.read (p.field .rsp)).toNat ≤ x.toNat → mem' x = mem x) :
    Intact img mem' p st := by
  have hfield : ∀ r ∈ asmCtx, mem'.read (p.field r) = mem.read (p.field r) :=
    fun r hr => Memory.read_of_region hctx (p.hasWord_field hr)
  cases st with
  | fresh co =>
      obtain ⟨hrsp, htramp, hco, hw₁, hw₂⟩ := h
      have hle := toNat_bootSp_add_eight p.base p.stack.size
      rw [hrsp] at hstack
      refine ⟨?_, ?_, ?_, hw₁, hw₂⟩
      · rw [hfield .rsp (by decide), hrsp]
      · rw [read_stack_congr hstack hw₁ le_rfl, htramp]
      · rw [read_stack_congr hstack hw₂ (by omega), hco]
  | suspended v =>
      obtain ⟨hrec, hret, hw⟩ := h
      have hrsp : mem.read (p.field .rsp) = v.reg .rsp - 8 := hrec .rsp (by decide)
      rw [hrsp] at hstack
      refine ⟨fun r hr => (hfield r hr).trans (hrec r hr), ?_, hw⟩
      rw [read_stack_congr hstack hw le_rfl, hret]

/-- Memory that is not the context's own may change. -/
theorem Intact.congr_region {img : Image} {mem mem' : Memory} {p : Place} {st : Status}
    (h : Intact img mem p st) (hctx : ∀ x, p.ctx.Has x → mem' x = mem x)
    (hstack : ∀ x, p.stack.Has x → mem' x = mem x) : Intact img mem' p st :=
  h.congr hctx fun x hx _ => hstack x hx

/-- The words of a record, after stores to all its fields. -/
theorem read_savedMem (m : Memory) (p : Place) (reg : Reg → Word) {r : Reg} (hr : r ∈ asmCtx) :
    (savedMem m p.record reg).read (p.field r) = reg r := by
  refine Memory.read_writeAll m (List.pairwise_map.mpr ?_) (List.mem_map.mpr ⟨r, hr, rfl⟩)
  have hnd : asmCtx.Nodup := by decide
  exact hnd.imp_of_mem fun ha hb hne => p.sep_field ha hb hne

/-- Stores to a record keep memory that is apart from it. -/
theorem savedMem_of_apart {r : Region} {p : Place} (h : r.Apart p.ctx) {x : Word} (hx : r.Has x)
    (m : Memory) (reg : Reg → Word) : savedMem m p.record reg x = m x := by
  refine Memory.writeAll_of_apart h hx m fun w hw => ?_
  obtain ⟨q, hq, rfl⟩ := List.mem_map.mp hw
  exact p.hasWord_field hq

/-- `co_create` writes the record and the stack of the new context. -/
theorem bootstrap_of_apart {img : Image} {r : Region} {p : Place} (hctx : r.Apart p.ctx)
    (hstack : r.Apart p.stack) (hfit : p.Fits) {x : Word} (hx : r.Has x) (m : Memory) (co : Word) :
    bootstrap img m co p.record p.base p.stack.size x = m x := by
  have hrsp := p.hasWord_field (r := .rsp) (by decide)
  refine (hctx.write_eq hrsp hx _ _).trans ?_
  refine (savedMem_of_apart hctx hx _ fun _ => 0).trans ?_
  exact (hstack.write_eq hfit.2 hx _ _).trans (hstack.write_eq hfit.1 hx _ _)

/-- What `co_create` builds. -/
theorem intact_bootstrap (img : Image) (m : Memory) (co : Word) {p : Place} (hfit : p.Fits) :
    Intact img (bootstrap img m co p.record p.base p.stack.size) p (.fresh co) := by
  have hrsp := p.hasWord_field (r := .rsp) (by decide)
  have height := bootSp_add_eight p.base p.stack.size
  have hadd := toNat_bootSp_add_eight p.base p.stack.size
  -- the stores to the record keep the stack
  have hkeep : ∀ a, p.stack.HasWord a →
      (bootstrap img m co p.record p.base p.stack.size).read a =
        ((m.write (stackTop p.base p.stack.size - 8) co).write (bootSp p.base p.stack.size)
          img.coTrampolineAt).read a := by
    intro a ha
    refine Memory.read_of_region (fun x hx => ?_) ha
    have hapart := p.own.symm
    exact (hapart.write_eq hrsp hx _ _).trans (savedMem_of_apart hapart hx _ fun _ => 0)
  refine ⟨Memory.read_write_self _ _ _, ?_, ?_, hfit.2, height ▸ hfit.1⟩
  · rw [hkeep _ hfit.2, Memory.read_write_self]
  · have hsep : Memory.Sep (bootSp p.base p.stack.size + 8) (bootSp p.base p.stack.size) := by
      have hw : p.stack.HasWord (bootSp p.base p.stack.size + 8) := height ▸ hfit.1
      exact (hfit.2.sep hw hadd.ge).symm
    rw [hkeep _ (height ▸ hfit.1), Memory.read_write_of_sep hsep, ← height, Memory.read_write_self]

end CCoroutine.Asm
