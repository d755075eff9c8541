import Mathlib.Data.List.Range
import Mathlib.Data.Nat.ModEq
import Mathlib.Data.List.Nodup
import Mathlib.Logic.Function.Basic

/-!
# Support — Ring

A circular buffer of capacity `cap` over any type: a slot array, the index of the oldest entry,
the index of the next free slot and the number of entries.  The indices are in range and agree
with each other by construction (`head_lt`, `size_le`, `tail_eq`), so a full and an empty buffer,
where `head = tail` both times, differ in `size` only.

`toList` reads the entries from the oldest to the newest.  `push` appends to that list
(`toList_push`) and `pop` takes its first element (`pop_eq_none`, `pop_cons`): the buffer is the
plain FIFO list, however often the indices have wrapped.
-/

namespace Support

/-- A circular buffer.  Slots outside the window of `size` entries from `head` hold anything. -/
structure Ring (α : Type) (cap : ℕ) where
  slots : ℕ → α
  head : ℕ
  tail : ℕ
  size : ℕ
  head_lt : head < cap
  size_le : size ≤ cap
  tail_eq : tail = (head + size) % cap

namespace Ring

variable {α : Type} {cap : ℕ}

/-- The empty buffer at index `0`, every slot holding `x`. -/
def empty (x : α) (h : 0 < cap) : Ring α cap where
  slots := fun _ => x
  head := 0
  tail := 0
  size := 0
  head_lt := h
  size_le := Nat.zero_le _
  tail_eq := (Nat.zero_mod cap).symm

/-- Write at `tail` and advance it. -/
def push (r : Ring α cap) (x : α) (h : r.size < cap) : Ring α cap where
  slots := Function.update r.slots r.tail x
  head := r.head
  tail := (r.tail + 1) % cap
  size := r.size + 1
  head_lt := r.head_lt
  size_le := h
  tail_eq := by rw [r.tail_eq, Nat.mod_add_mod, Nat.add_assoc]

/-- Read at `head` and advance it; nothing when the buffer is empty. -/
def pop (r : Ring α cap) : Option α × Ring α cap :=
  if h : r.size = 0 then (none, r)
  else (some (r.slots r.head), {
    slots := r.slots
    head := (r.head + 1) % cap
    tail := r.tail
    size := r.size - 1
    head_lt := Nat.mod_lt _ (Nat.zero_lt_of_lt r.head_lt)
    size_le := (Nat.sub_le _ _).trans r.size_le
    tail_eq := by
      rw [r.tail_eq, Nat.mod_add_mod]
      congr 1
      omega })

/-- The entries, oldest first. -/
def toList (r : Ring α cap) : List α :=
  (List.range r.size).map fun i => r.slots ((r.head + i) % cap)

@[simp] theorem length_toList (r : Ring α cap) : r.toList.length = r.size := by
  simp [toList]

theorem toList_eq_nil (r : Ring α cap) : r.toList = [] ↔ r.size = 0 := by
  rw [← List.length_eq_zero_iff, length_toList]

/-- Two offsets below the capacity that reach one slot are equal. -/
theorem offset_inj {h i j : ℕ} (hi : i < cap) (hj : j < cap)
    (e : (h + i) % cap = (h + j) % cap) : i = j := by
  have := (Nat.ModEq.add_left_cancel' h e : i ≡ j [MOD cap])
  rwa [Nat.ModEq, Nat.mod_eq_of_lt hi, Nat.mod_eq_of_lt hj] at this

/-- **A push appends.**  The slot at `tail` is none of the `size` slots of the window, so no
entry is overwritten. -/
@[simp] theorem toList_push (r : Ring α cap) (x : α) (h : r.size < cap) :
    (r.push x h).toList = r.toList ++ [x] := by
  have hwin : ∀ i ∈ List.range r.size,
      Function.update r.slots r.tail x ((r.head + i) % cap) = r.slots ((r.head + i) % cap) := by
    intro i hi
    have hi' : i < r.size := List.mem_range.mp hi
    refine Function.update_of_ne (fun e => ?_) _ _
    rw [r.tail_eq] at e
    exact absurd (offset_inj (hi'.trans h) h e) hi'.ne
  simp only [toList, push, List.range_succ, List.map_append, List.map_cons, List.map_nil]
  rw [List.map_congr_left hwin, ← r.tail_eq, Function.update_self]

theorem pop_eq_none (r : Ring α cap) (h : r.toList = []) : r.pop = (none, r) := by
  rw [toList_eq_nil] at h
  simp [pop, h]

/-- **A pop takes the oldest entry** and leaves the others in order. -/
theorem pop_cons (r : Ring α cap) {x : α} {xs : List α} (h : r.toList = x :: xs) :
    ∃ r', r.pop = (some x, r') ∧ r'.toList = xs := by
  have hs : r.size ≠ 0 := by
    rw [Ne, ← toList_eq_nil, h]
    exact List.cons_ne_nil _ _
  obtain ⟨n, hn⟩ := Nat.exists_eq_succ_of_ne_zero hs
  simp only [toList, hn, Nat.succ_eq_add_one, List.range_succ_eq_map, List.map_cons,
    List.map_map, List.cons.injEq] at h
  obtain ⟨hx, hxs⟩ := h
  rw [Nat.add_zero, Nat.mod_eq_of_lt r.head_lt] at hx
  refine ⟨_, by rw [pop, dif_neg hs, hx], ?_⟩
  rw [← hxs]
  simp only [toList, hn, Nat.succ_eq_add_one, Nat.add_sub_cancel]
  refine List.map_congr_left fun i _ => ?_
  -- the window now starts one slot further on
  show r.slots (((r.head + 1) % cap + i) % cap) = r.slots ((r.head + (i + 1)) % cap)
  rw [Nat.mod_add_mod, Nat.add_right_comm, Nat.add_assoc]

end Ring

end Support
