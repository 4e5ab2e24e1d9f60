/-
# The running minimum and maximum of a list

A loop that starts from a sentinel and keeps the smaller of the value it has and
the one it meets computes `List.foldl min`.  What it ends with is the least of the
sentinel and the values (`isLeast_foldl_min`); it is the least of the values alone
if and only if one of them does not exceed the sentinel (`isLeast_foldl_min_iff`).
The same holds for maxima, in the opposite order.
-/

import Mathlib.Order.Bounds.Basic
import Mathlib.Order.MinMax
import Mathlib.Order.OrderDual

namespace RunningExtremes

variable {α : Type} [LinearOrder α]

/-- **The running minimum** is the least of the sentinel and the values. -/
theorem isLeast_foldl_min (a : α) (l : List α) :
    IsLeast {x | x = a ∨ x ∈ l} (l.foldl min a) := by
  induction l generalizing a with
  | nil =>
      refine ⟨Or.inl rfl, fun x hx => ?_⟩
      rcases hx with rfl | hx
      · exact le_refl _
      · exact absurd hx List.not_mem_nil
  | cons b l ih =>
      obtain ⟨hmem, hlow⟩ := ih (min a b)
      rw [List.foldl_cons]
      refine ⟨?_, fun x hx => ?_⟩
      · rcases hmem with hmin | hmem
        · rcases min_choice a b with h | h
          · exact Or.inl (hmin.trans h)
          · exact Or.inr (List.mem_cons.mpr (Or.inl (hmin.trans h)))
        · exact Or.inr (List.mem_cons_of_mem b hmem)
      · have hstart : l.foldl min (min a b) ≤ min a b := hlow (Or.inl rfl)
        rcases hx with rfl | hx
        · exact hstart.trans (min_le_left x b)
        · rcases List.mem_cons.mp hx with rfl | hx
          · exact hstart.trans (min_le_right a x)
          · exact hlow (Or.inr hx)

/-- **When the sentinel does not show:** the running minimum is the least of the
values exactly if one of them does not exceed the sentinel. -/
theorem isLeast_foldl_min_iff {a : α} {l : List α} :
    IsLeast {x | x ∈ l} (l.foldl min a) ↔ ∃ x ∈ l, x ≤ a := by
  obtain ⟨hmem, hlow⟩ := isLeast_foldl_min a l
  constructor
  · intro h
    exact ⟨_, h.1, hlow (Or.inl rfl)⟩
  · rintro ⟨x, hx, hxa⟩
    refine ⟨?_, fun y hy => hlow (Or.inr hy)⟩
    rcases hmem with hmin | hmem
    · -- The sentinel itself is among the values then.
      have hle : l.foldl min a ≤ x := hlow (Or.inr hx)
      have heq : x = l.foldl min a := le_antisymm (hxa.trans hmin.ge) hle
      rw [← heq]
      exact hx
    · exact hmem

/-- The running maximum is the greatest of the values exactly if one of them is at
least the sentinel. -/
theorem isGreatest_foldl_max_iff {a : α} {l : List α} :
    IsGreatest {x | x ∈ l} (l.foldl max a) ↔ ∃ x ∈ l, a ≤ x :=
  @isLeast_foldl_min_iff αᵒᵈ _ a l

end RunningExtremes
