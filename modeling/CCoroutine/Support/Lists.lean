import Mathlib.Data.List.Nodup

/-!
# Support — Lists

`List.eraseDups` keeps the first occurrence of each element: its result has no duplicates and is
in the order of the first occurrences, and it changes nothing on a list without duplicates.

`cut_of_append_eq`: two ways to cut one list, one of them at an element that the other does not
reach.  `length_le_one`: no two different elements, and no element twice.
-/

namespace Support

variable {α : Type}

theorem cut_of_append_eq {l q rest new : List α} {x : α} (h : l ++ x :: rest = q ++ new)
    (hx : x ∉ q) : ∃ zs, l = q ++ zs ∧ new = zs ++ x :: rest := by
  rcases List.append_eq_append_iff.mp h with ⟨zs, hq, hnew⟩ | ⟨zs, hl, hnew⟩
  · cases zs with
    | nil => exact ⟨[], by simpa using hq.symm, hnew.symm⟩
    | cons z zs =>
        obtain rfl : x = z := (List.cons.inj hnew).1
        exact absurd (by rw [hq]; simp) hx
  · exact ⟨zs, hl, hnew⟩

/-- A list without duplicates whose elements are all equal. -/
theorem length_le_one {l : List α} (hnd : l.Nodup) (h : ∀ x ∈ l, ∀ y ∈ l, x = y) :
    l.length ≤ 1 := by
  cases l with
  | nil => exact Nat.zero_le 1
  | cons x l =>
      have hnil : l = [] := by
        refine List.eq_nil_iff_forall_not_mem.mpr fun y hy => ?_
        rw [← h x List.mem_cons_self y (List.mem_cons_of_mem x hy)] at hy
        exact (List.nodup_cons.mp hnd).1 hy
      rw [hnil]
      exact Nat.le_refl 1

variable [DecidableEq α]

theorem nodup_eraseDups (l : List α) : l.eraseDups.Nodup := by
  generalize hn : l.length = n
  induction n using Nat.strongRecOn generalizing l with
  | ind n ih =>
      cases l with
      | nil => exact List.nodup_nil
      | cons a l =>
          have hlt : (l.filter fun b => !b == a).length < n := by
            have := List.length_filter_le (fun b => !b == a) l
            rw [← hn, List.length_cons]
            omega
          rw [List.eraseDups_cons, List.nodup_cons]
          refine ⟨fun h => ?_, ih _ hlt _ rfl⟩
          simp at h

theorem eraseDups_eq_self {l : List α} (h : l.Nodup) : l.eraseDups = l := by
  induction l with
  | nil => rfl
  | cons a l ih =>
      obtain ⟨ha, hl⟩ := List.nodup_cons.mp h
      have hf : (l.filter fun b => !b == a) = l := by
        refine List.filter_eq_self.mpr fun b hb => ?_
        have : b ≠ a := fun e => ha (e ▸ hb)
        simpa using this
      rw [List.eraseDups_cons, hf, ih hl]

/-- In `x :: l` the elements other than `x` stand one place later than in `l`. -/
theorem pairwise_idxOf_cons {x : α} {l m : List α} (hm : x ∉ m)
    (h : m.Pairwise fun a b => l.idxOf a < l.idxOf b) :
    m.Pairwise fun a b => (x :: l).idxOf a < (x :: l).idxOf b := by
  refine h.imp_of_mem fun {a b} ha hb hab => ?_
  have hxa : x ≠ a := fun e => hm (e ▸ ha)
  have hxb : x ≠ b := fun e => hm (e ▸ hb)
  rw [List.idxOf_cons_ne l hxa, List.idxOf_cons_ne l hxb]
  exact Nat.succ_lt_succ hab

/-- What remains of a list after a filter, without duplicates, is in the order of the first
occurrences in the whole list. -/
theorem pairwise_idxOf_eraseDups (l : List α) :
    ∀ p : α → Bool, (l.filter p).eraseDups.Pairwise fun a b => l.idxOf a < l.idxOf b := by
  induction l with
  | nil => exact fun _ => List.Pairwise.nil
  | cons x l ih =>
      intro p
      by_cases hx : p x = true
      · rw [List.filter_cons_of_pos hx, List.eraseDups_cons, List.filter_filter]
        have hnot : x ∉ (l.filter fun a => !a == x && p a).eraseDups := by simp
        refine List.pairwise_cons.mpr ⟨fun b hb => ?_, pairwise_idxOf_cons hnot (ih _)⟩
        have hne : x ≠ b := fun e => hnot (e ▸ hb)
        rw [List.idxOf_cons_self, List.idxOf_cons_ne l hne]
        exact Nat.succ_pos _
      · rw [List.filter_cons_of_neg hx]
        exact pairwise_idxOf_cons (by simp [hx]) (ih p)

end Support
