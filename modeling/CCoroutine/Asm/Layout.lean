import CCoroutine.Asm.Switch

/-!
# Asm — Layout

Where contexts lie in memory: an `AsmCtx` record and a stack for each (`Place`), and a set of
contexts no two of which share a byte (`Layout`), so that a store into the memory of one of them
changes nothing of another.
-/

namespace CCoroutine.Asm
open Support (Word Memory Region)
open Support.X86 (Reg)

/-- Where a context has its record and its stack. -/
structure Place where
  record : Word
  stack : Region
  record_le : record.toNat + asmCtxSize ≤ 2 ^ 64
  /-- The record is not on the stack. -/
  own : (⟨record.toNat, asmCtxSize, record_le⟩ : Region).Apart stack

namespace Place

/-- The bytes of the record. -/
def ctx (p : Place) : Region := ⟨p.record.toNat, asmCtxSize, p.record_le⟩

/-- The address of a field of the record. -/
def field (p : Place) (r : Reg) : Word := p.record + offset r

/-- Two contexts share no memory. -/
structure Apart (p q : Place) : Prop where
  ctx_ctx : p.ctx.Apart q.ctx
  ctx_stack : p.ctx.Apart q.stack
  stack_ctx : p.stack.Apart q.ctx
  stack_stack : p.stack.Apart q.stack

theorem Apart.symm {p q : Place} (h : p.Apart q) : q.Apart p :=
  ⟨h.ctx_ctx.symm, h.stack_ctx.symm, h.ctx_stack.symm, h.stack_stack.symm⟩

theorem toNat_offset (r : Reg) : (offset r).toNat = 8 * asmCtx.idxOf r := by
  cases r <;> rfl

theorem idxOf_lt {r : Reg} (h : r ∈ asmCtx) : asmCtx.idxOf r < 7 :=
  List.idxOf_lt_length_iff.mpr h

theorem toNat_field (p : Place) {r : Reg} (h : r ∈ asmCtx) :
    (p.field r).toNat = p.record.toNat + 8 * asmCtx.idxOf r := by
  have hidx := idxOf_lt h
  have hle : p.record.toNat + 56 ≤ 2 ^ 64 := p.record_le
  rw [field, BitVec.toNat_add, toNat_offset]
  omega

theorem hasWord_field (p : Place) {r : Reg} (h : r ∈ asmCtx) : p.ctx.HasWord (p.field r) := by
  have hidx := idxOf_lt h
  have := p.toNat_field h
  simp only [Region.HasWord, ctx, asmCtxSize]
  omega

/-- The fields do not overlap. -/
theorem sep_field (p : Place) {r q : Reg} (hr : r ∈ asmCtx) (hq : q ∈ asmCtx) (hne : r ≠ q) :
    Memory.Sep (p.field r) (p.field q) := by
  have hidx : asmCtx.idxOf r ≠ asmCtx.idxOf q := fun e => hne ((List.idxOf_inj hr).mp e)
  have h₁ := p.toNat_field hr
  have h₂ := p.toNat_field hq
  rcases Nat.lt_or_gt_of_ne hidx with hlt | hgt
  · exact (p.hasWord_field hr).sep (p.hasWord_field hq) (by omega)
  · exact ((p.hasWord_field hq).sep (p.hasWord_field hr) (by omega)).symm

end Place

/-- The contexts that exist, in memory that no two of them share. -/
structure Layout (ι : Type) where
  place : ι → Option Place
  apart : ∀ i j p q, i ≠ j → place i = some p → place j = some q → p.Apart q

namespace Layout

variable {ι : Type} [DecidableEq ι]

/-- What is left when a context is gone was there before. -/
theorem some_of_update {f : ι → Option Place} {i j : ι} {p : Place}
    (h : Function.update f i none j = some p) : f j = some p := by
  by_cases e : j = i
  · rw [e, Function.update_self] at h; cases h
  · rwa [Function.update_of_ne e] at h

/-- A new context, apart from the others. -/
def add (L : Layout ι) (i : ι) (p : Place)
    (h : ∀ j q, j ≠ i → L.place j = some q → p.Apart q) : Layout ι where
  place := Function.update L.place i (some p)
  apart := by
    intro j k q r hne hj hk
    by_cases ej : j = i
    · subst ej
      rw [Function.update_self] at hj
      rw [Function.update_of_ne hne.symm] at hk
      cases hj
      exact h k r hne.symm hk
    · rw [Function.update_of_ne ej] at hj
      by_cases ek : k = i
      · subst ek
        rw [Function.update_self] at hk
        cases hk
        exact (h j q ej hj).symm
      · rw [Function.update_of_ne ek] at hk
        exact L.apart j k q r hne hj hk

section

variable (L : Layout ι) {i j : ι} {p : Place}
  (h : ∀ j q, j ≠ i → L.place j = some q → p.Apart q)

theorem place_add_self : (L.add i p h).place i = some p := Function.update_self _ _ _

theorem place_add_of_ne (hne : j ≠ i) : (L.add i p h).place j = L.place j :=
  Function.update_of_ne hne _ _

end

/-- A context is gone. -/
def remove (L : Layout ι) (i : ι) : Layout ι where
  place := Function.update L.place i none
  apart := by
    intro j k q r hne hj hk
    exact L.apart j k q r hne (some_of_update hj) (some_of_update hk)

theorem place_remove_of_ne (L : Layout ι) {i j : ι} (hne : j ≠ i) :
    (L.remove i).place j = L.place j :=
  Function.update_of_ne hne _ _

theorem place_of_remove {L : Layout ι} {i j : ι} {p : Place} (h : (L.remove i).place j = some p) :
    L.place j = some p :=
  some_of_update h

end Layout

end CCoroutine.Asm
