import Mathlib.Data.BitVec

/-!
# Support — Memory

A byte memory with 64-bit addresses, and the 64-bit little-endian words in it.  A word read where
it was written is the word (`read_write_self`); a write changes nothing elsewhere
(`read_write_of_sep`).

A `Region` is a range of addresses that does not wrap around, so that reasoning about what lies in
it is linear arithmetic on `toNat`.
-/

namespace Support

/-- An address, or what a register holds. -/
abbrev Word := BitVec 64

abbrev Memory := Word → BitVec 8

namespace Memory

/-- The word at `a`, lowest byte first. -/
def read (m : Memory) (a : Word) : Word :=
  m (a + 7) ++ m (a + 6) ++ m (a + 5) ++ m (a + 4) ++ m (a + 3) ++ m (a + 2) ++ m (a + 1) ++ m a

/-- Store the word `v` at `a`. -/
def write (m : Memory) (a v : Word) : Memory := fun x =>
  if (x - a).toNat < 8 then v.extractLsb' (8 * (x - a).toNat) 8 else m x

/-- The words at `a` and at `b` do not overlap. -/
def Sep (a b : Word) : Prop := ∀ x : Word, (x - a).toNat < 8 → ¬ (x - b).toNat < 8

variable {m m' : Memory} {a b v : Word}

theorem read_congr (h : ∀ x : Word, (x - a).toNat < 8 → m x = m' x) : m.read a = m'.read a := by
  have byte : ∀ i : Word, i.toNat < 8 → m (a + i) = m' (a + i) := by
    intro i hi
    exact h _ (by rwa [add_sub_cancel_left])
  have h0 : m a = m' a := by simpa using byte 0 (by decide)
  unfold read
  rw [byte 7 (by decide), byte 6 (by decide), byte 5 (by decide), byte 4 (by decide),
    byte 3 (by decide), byte 2 (by decide), byte 1 (by decide), h0]

theorem write_of_not (h : ¬ (v - a).toNat < 8) {w : Word} : m.write a w v = m v := by
  rw [write, if_neg h]

theorem read_write_self (m : Memory) (a v : Word) : (m.write a v).read a = v := by
  have byte : ∀ i : Word, i.toNat < 8 → m.write a v (a + i) = v.extractLsb' (8 * i.toNat) 8 := by
    intro i hi
    rw [write, add_sub_cancel_left, if_pos hi]
  have h0 : m.write a v a = v.extractLsb' 0 8 := by simpa using byte 0 (by decide)
  unfold read
  rw [byte 7 (by decide), byte 6 (by decide), byte 5 (by decide), byte 4 (by decide),
    byte 3 (by decide), byte 2 (by decide), byte 1 (by decide), h0]
  refine BitVec.eq_of_getLsbD_eq fun i hi => ?_
  simp only [BitVec.getLsbD_append, BitVec.getLsbD_extractLsb']
  split_ifs <;> simp <;> grind

theorem read_write_of_sep (h : Sep a b) : (m.write b v).read a = m.read a :=
  read_congr fun x hx => write_of_not (h x hx)

end Memory

/-! ### Rounding -/

theorem testBit_fifteen (i : ℕ) : Nat.testBit 15 i = decide (i < 4) := by
  rw [show 15 = 2 ^ 4 - 1 from rfl, Nat.testBit_two_pow_sub_one]

theorem and_not_fifteen (x : Word) : x &&& ~~~15#64 = (x >>> 4) <<< 4 := by
  refine BitVec.eq_of_getLsbD_eq fun i hi => ?_
  simp only [BitVec.getLsbD_and, BitVec.getLsbD_not, BitVec.getLsbD_shiftLeft,
    BitVec.getLsbD_ushiftRight, BitVec.getLsbD_ofNat, testBit_fifteen]
  by_cases h : i < 4
  · simp [h, hi]
  · simp [h, hi, show 4 + (i - 4) = i by omega]

/-- Rounding down to a multiple of 16. -/
theorem toNat_and_not_fifteen (x : Word) : (x &&& ~~~15#64).toNat = 16 * (x.toNat / 16) := by
  have := x.isLt
  rw [and_not_fifteen, BitVec.toNat_shiftLeft, BitVec.toNat_ushiftRight, Nat.shiftLeft_eq,
    Nat.shiftRight_eq_div_pow]
  omega

/-! ### Regions -/

/-- The addresses from `base` on, `size` many. -/
structure Region where
  base : ℕ
  size : ℕ
  /-- It does not wrap around. -/
  le : base + size ≤ 2 ^ 64

namespace Region

/-- The byte at `x` is in the region. -/
def Has (r : Region) (x : Word) : Prop := r.base ≤ x.toNat ∧ x.toNat < r.base + r.size

/-- The word at `a` is in the region. -/
def HasWord (r : Region) (a : Word) : Prop := r.base ≤ a.toNat ∧ a.toNat + 8 ≤ r.base + r.size

instance (r : Region) (a : Word) : Decidable (r.HasWord a) := inferInstanceAs (Decidable (_ ∧ _))

/-- The regions have no byte in common. -/
def Apart (r₁ r₂ : Region) : Prop := ∀ x, r₁.Has x → ¬ r₂.Has x

variable {r r₁ r₂ : Region} {a b x : Word}

theorem Apart.symm (h : r₁.Apart r₂) : r₂.Apart r₁ := fun x h₂ h₁ => h x h₁ h₂

theorem apart_of_le (h : r₁.base + r₁.size ≤ r₂.base) : r₁.Apart r₂ :=
  fun _ h₁ h₂ => absurd (h₁.2.trans_le h) (not_lt.mpr h₂.1)

/-- A byte of a word that does not wrap around. -/
theorem toNat_of_sub_lt (ha : a.toNat + 8 ≤ 2 ^ 64) (hx : (x - a).toNat < 8) :
    a.toNat ≤ x.toNat ∧ x.toNat < a.toNat + 8 := by
  have hxlt := x.isLt
  rw [BitVec.toNat_sub] at hx
  omega

/-- The bytes of a word in the region are in the region. -/
theorem HasWord.has (h : r.HasWord a) (hx : (x - a).toNat < 8) : r.Has x := by
  obtain ⟨hlo, hhi⟩ := h
  have := toNat_of_sub_lt (hhi.trans r.le) hx
  exact ⟨by omega, by omega⟩

/-- A word that lies below another one in a region. -/
theorem HasWord.sep (ha : r.HasWord a) (hb : r.HasWord b) (h : a.toNat + 8 ≤ b.toNat) :
    Memory.Sep a b := by
  intro x hx hx'
  have h₁ := toNat_of_sub_lt (ha.2.trans r.le) hx
  have h₂ := toNat_of_sub_lt (hb.2.trans r.le) hx'
  omega

/-- A write into one region keeps the bytes of the other. -/
theorem Apart.write_eq (h : r₁.Apart r₂) (hb : r₂.HasWord b) (hx : r₁.Has x) (m : Memory)
    (v : Word) : m.write b v x = m x :=
  Memory.write_of_not fun hlt => h x hx (hb.has hlt)

end Region

/-- What agrees on the bytes of a region agrees on its words. -/
theorem Memory.read_of_region {m m' : Memory} {r : Region} {a : Word}
    (h : ∀ x, r.Has x → m' x = m x) (ha : r.HasWord a) : m'.read a = m.read a :=
  read_congr fun x hx => h x (ha.has hx)

theorem Memory.Sep.symm {a b : Word} (h : Memory.Sep a b) : Memory.Sep b a :=
  fun x hb ha => h x ha hb

/-! ### Several stores -/

namespace Memory

/-- Store the words of `l`, each at its address, in order. -/
def writeAll (m : Memory) (l : List (Word × Word)) : Memory :=
  l.foldl (fun m p => m.write p.1 p.2) m

theorem read_writeAll_of_sep {l : List (Word × Word)} {a : Word} :
    ∀ m : Memory, (∀ p ∈ l, Sep a p.1) → (m.writeAll l).read a = m.read a := by
  induction l with
  | nil => exact fun m _ => rfl
  | cons p l ih =>
      intro m h
      have hp := h p List.mem_cons_self
      exact (ih _ fun q hq => h q (List.mem_cons_of_mem _ hq)).trans (read_write_of_sep hp)

/-- Words that do not overlap are all there. -/
theorem read_writeAll {l : List (Word × Word)} {a v : Word} :
    ∀ m : Memory, l.Pairwise (fun p q => Sep p.1 q.1) → (a, v) ∈ l → (m.writeAll l).read a = v := by
  induction l with
  | nil => exact fun m _ h => absurd h List.not_mem_nil
  | cons p l ih =>
      intro m hl h
      obtain ⟨hp, hl⟩ := List.pairwise_cons.mp hl
      rcases List.mem_cons.mp h with rfl | h
      · exact (read_writeAll_of_sep _ hp).trans (read_write_self m a v)
      · exact ih _ hl h

/-- Stores into one region keep the bytes of another. -/
theorem writeAll_of_apart {l : List (Word × Word)} {r₁ r₂ : Region} (h : r₁.Apart r₂) {x : Word}
    (hx : r₁.Has x) : ∀ m : Memory, (∀ p ∈ l, r₂.HasWord p.1) → m.writeAll l x = m x := by
  induction l with
  | nil => exact fun m _ => rfl
  | cons p l ih =>
      intro m hl
      have hp := hl p List.mem_cons_self
      exact (ih _ fun q hq => hl q (List.mem_cons_of_mem _ hq)).trans (h.write_eq hp hx m p.2)

end Memory

end Support
