/-
# Threads that own cells

Threads with local states take steps on a common heap.  Each of them owns some of
the heap's cells and relies on nothing but these, and no cell has two owners
(`Separated`).  A step of one thread that leaves the cells of the others alone, and
takes no cell that somebody else owns, keeps that (`Separated.update`); where the
thread changes its own cells only, the others have nothing to say about it.
-/

import Mathlib.Data.Set.Defs
import Mathlib.Logic.Function.Basic
import Mathlib.Tactic.Common

namespace Ownership

variable {ι X H L : Type} {owns : L → Set X} {ok : H → L → Prop} {same : H → H → X → Prop}

/-- Every thread finds what it relies on, and no cell has two owners. -/
structure Separated (owns : L → Set X) (ok : H → L → Prop) (h : H) (thread : ι → L) : Prop where
  ok : ∀ i, ok h (thread i)
  exclusive : ∀ i j x, x ∈ owns (thread i) → x ∈ owns (thread j) → i = j

/-- What one thread owns no other one does. -/
theorem Separated.not_mem {h : H} {thread : ι → L} (hs : Separated owns ok h thread) {i j : ι}
    (hne : j ≠ i) {x : X} (hi : x ∈ owns (thread i)) : x ∉ owns (thread j) := fun hj =>
  hne (hs.exclusive j i x hj hi)

/-- **One thread takes a step**, with what it relies on there afterwards, the cells of
the others the same as before, and no cell taken from them. -/
theorem Separated.update [DecidableEq ι]
    (hframe : ∀ h h' l, ok h l → (∀ x ∈ owns l, same h h' x) → ok h' l)
    {h h' : H} {thread : ι → L} (hs : Separated owns ok h thread) {i : ι} {l : L}
    (hok : ok h' l) (hsame : ∀ j, j ≠ i → ∀ x ∈ owns (thread j), same h h' x)
    (howns : ∀ x ∈ owns l, x ∈ owns (thread i) ∨ ∀ j, x ∉ owns (thread j)) :
    Separated owns ok h' (Function.update thread i l) where
  ok j := by
    rw [Function.update_apply]
    split_ifs with hj
    · exact hok
    · exact hframe h h' (thread j) (hs.ok j) (hsame j hj)
  exclusive j j' x hx hx' := by
    have hother : ∀ j, j ≠ i → x ∈ owns l → x ∉ owns (thread j) := fun j hj hl => by
      rcases howns x hl with hi | hnone
      · exact hs.not_mem hj hi
      · exact hnone j
    rw [Function.update_apply] at hx hx'
    split_ifs at hx hx' with hj hj' hj'
    · exact hj.trans hj'.symm
    · exact absurd hx' (hother j' hj' hx)
    · exact absurd hx (hother j hj hx')
    · exact hs.exclusive j j' x hx hx'

/-- Every cell in use has an owner. -/
def Covered (inUse : H → X → Prop) (owns : L → Set X) (h : H) (thread : ι → L) : Prop :=
  ∀ x, inUse h x → ∃ i, x ∈ owns (thread i)

/-- A step of one thread keeps that, if the cells that it gives up are not in use any
more, and those that it takes into use are its own. -/
theorem Covered.update [DecidableEq ι] {inUse : H → X → Prop} {h h' : H} {thread : ι → L}
    (hc : Covered inUse owns h thread) {i : ι} {l : L}
    (hcover : ∀ x, inUse h' x → x ∈ owns l ∨ inUse h x ∧ x ∉ owns (thread i)) :
    Covered inUse owns h' (Function.update thread i l) := by
  intro x hx
  rcases hcover x hx with hl | ⟨hold, hnot⟩
  · exact ⟨i, by rwa [Function.update_self]⟩
  · obtain ⟨j, hj⟩ := hc x hold
    have hne : j ≠ i := by
      rintro rfl
      exact hnot hj
    exact ⟨j, by rwa [Function.update_of_ne hne]⟩

end Ownership
