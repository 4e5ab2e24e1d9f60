/-
# Heaps whose cells have names

An arena in which every cell that is in use has a name, and no two cells have one name:
`cells` says under each name where its cell is and what is in it (`Named`).  An
allocation, a store and a release are then updates of `cells` under one name, and a
statement about a structure in the heap is one about the names that it is made of; it
cannot be disturbed under other names.

Since `cells` has all that is in use, a structure that is gone from all names has left
nothing behind.  `Cleared` says which names a release takes the cells from.
-/

import Iotrace.Library.Arena
import Mathlib.Data.Set.Operations
import Mathlib.Logic.Function.Basic

variable {X β : Type} {m : Arena β} {cells : X → Option (ℕ × β)} {x : X} {a : ℕ} {b : β}

/-- Every cell in use is that of one name, with what `cells` has for it. -/
structure Named (m : Arena β) (cells : X → Option (ℕ × β)) : Prop where
  held : ∀ x a b, cells x = some (a, b) → m.cell a = some b
  exclusive : ∀ x y a b b', cells x = some (a, b) → cells y = some (a, b') → x = y
  covered : ∀ a b, m.cell a = some b → ∃ x, cells x = some (a, b)

namespace Named

/-- Nothing is in use, and nothing has a name. -/
theorem empty : Named (Arena.empty : Arena β) (fun _ : X => none) where
  held x a b h := by cases h
  exclusive x y a b b' h := by cases h
  covered a b h := by
    change none = some b at h
    cases h

/-- Where no name has a cell, nothing is in use. -/
theorem cell_eq_none (h : Named m cells) (hnone : ∀ x, cells x = none) (a : ℕ) :
    m.cell a = none := by
  by_contra hsome
  obtain ⟨b, hb⟩ := Option.ne_none_iff_exists'.mp hsome
  obtain ⟨x, hx⟩ := h.covered a b hb
  cases (hnone x).symm.trans hx

variable [DecidableEq X]

/-- **An allocation** gives a cell to a name that had none. -/
theorem alloc (h : Named m cells) (hnone : cells x = none) (b : β) :
    Named (m.alloc b) (Function.update cells x (some (m.next, b))) := by
  have hcells : ∀ y, Function.update cells x (some (m.next, b)) y =
      if y = x then some (m.next, b) else cells y := fun y => Function.update_apply _ _ _ _
  refine ⟨fun y a b' hy => ?_, fun y z a b₁ b₂ hy hz => ?_, fun a b' hb' => ?_⟩
  · rw [hcells] at hy
    split_ifs at hy
    · obtain ⟨rfl, rfl⟩ := Prod.mk.inj (Option.some.inj hy)
      exact Arena.alloc_cell_self m b
    · exact Arena.alloc_cell_of_some (h.held y a b' hy)
  · rw [hcells] at hy hz
    have hnext : ∀ y b', cells y ≠ some (m.next, b') := fun y b' hy =>
      Arena.ne_next (h.held y _ b' hy) rfl
    split_ifs at hy hz with hyx hzx hzx
    · exact hyx.trans hzx.symm
    · obtain ⟨rfl, -⟩ := Prod.mk.inj (Option.some.inj hy)
      exact absurd hz (hnext z b₂)
    · obtain ⟨rfl, -⟩ := Prod.mk.inj (Option.some.inj hz)
      exact absurd hy (hnext y b₁)
    · exact h.exclusive y z a b₁ b₂ hy hz
  · by_cases ha : a = m.next
    · subst ha
      rw [Arena.alloc_cell_self] at hb'
      exact ⟨x, by rw [hcells, if_pos rfl, Option.some.inj hb']⟩
    · rw [Arena.alloc_cell_ne m b ha] at hb'
      obtain ⟨y, hy⟩ := h.covered a b' hb'
      refine ⟨y, ?_⟩
      rw [hcells, if_neg]
      · exact hy
      · rintro rfl
        cases hnone.symm.trans hy

/-- **A store** changes what is in the cell of a name. -/
theorem write (h : Named m cells) (hx : cells x = some (a, b)) (b' : β) :
    Named (m.write a b') (Function.update cells x (some (a, b'))) := by
  have hcells : ∀ y, Function.update cells x (some (a, b')) y =
      if y = x then some (a, b') else cells y := fun y => Function.update_apply _ _ _ _
  have hcell := h.held x a b hx
  have hother : ∀ y c d, y ≠ x → cells y = some (c, d) → c ≠ a := by
    rintro y c d hyx hy rfl
    exact hyx (h.exclusive y x c d b hy hx)
  refine ⟨fun y c d hy => ?_, fun y z c d d' hy hz => ?_, fun c d hd => ?_⟩
  · rw [hcells] at hy
    split_ifs at hy with hyx
    · obtain ⟨rfl, rfl⟩ := Prod.mk.inj (Option.some.inj hy)
      exact Arena.write_cell_self hcell
    · rw [Arena.write_cell_ne m b' (hother y c d hyx hy)]
      exact h.held y c d hy
  · rw [hcells] at hy hz
    split_ifs at hy hz with hyx hzx hzx
    · exact hyx.trans hzx.symm
    · obtain ⟨rfl, -⟩ := Prod.mk.inj (Option.some.inj hy)
      exact absurd rfl (hother z a d' hzx hz)
    · obtain ⟨rfl, -⟩ := Prod.mk.inj (Option.some.inj hz)
      exact absurd rfl (hother y a d hyx hy)
    · exact h.exclusive y z c d d' hy hz
  · by_cases hc : c = a
    · subst hc
      rw [Arena.write_cell_self hcell] at hd
      exact ⟨x, by rw [hcells, if_pos rfl, Option.some.inj hd]⟩
    · rw [Arena.write_cell_ne m b' hc] at hd
      obtain ⟨y, hy⟩ := h.covered c d hd
      refine ⟨y, ?_⟩
      rw [hcells, if_neg]
      · exact hy
      · rintro rfl
        obtain ⟨rfl, -⟩ := Prod.mk.inj (Option.some.inj (hy.symm.trans hx))
        exact hc rfl

/-- **A release** takes the cell from its name. -/
theorem free (h : Named m cells) (hx : cells x = some (a, b)) :
    Named (m.free a) (Function.update cells x none) := by
  have hcells : ∀ y, Function.update cells x none y = if y = x then none else cells y :=
    fun y => Function.update_apply _ _ _ _
  refine ⟨fun y c d hy => ?_, fun y z c d d' hy hz => ?_, fun c d hd => ?_⟩
  · rw [hcells] at hy
    split_ifs at hy with hyx
    have hca : c ≠ a := by
      rintro rfl
      exact hyx (h.exclusive y x c d b hy hx)
    rw [Arena.free_cell_ne m hca]
    exact h.held y c d hy
  · rw [hcells] at hy hz
    split_ifs at hy hz
    exact h.exclusive y z c d d' hy hz
  · have hca : c ≠ a := by
      rintro rfl
      rw [Arena.free_cell_self] at hd
      cases hd
    rw [Arena.free_cell_ne m hca] at hd
    obtain ⟨y, hy⟩ := h.covered c d hd
    refine ⟨y, ?_⟩
    rw [hcells, if_neg]
    · exact hy
    · rintro rfl
      obtain ⟨rfl, -⟩ := Prod.mk.inj (Option.some.inj (hy.symm.trans hx))
      exact hca rfl

end Named

/-! ### What is left alone -/

/-- A change under a name of a structure is none under the names that are not its own. -/
theorem eqOn_update [DecidableEq X] {Y γ : Type} (p : Y → X) (q : Y) (c : X → γ) (v : γ) :
    Set.EqOn (Function.update c (p q) v) c (Set.range p)ᶜ := fun _ hx =>
  Function.update_of_ne (fun heq => hx ⟨q, heq.symm⟩) v c

/-- The cells have been taken from the names in `S`, and from no others. -/
structure Cleared (S : Set X) (c c' : X → Option (ℕ × β)) : Prop where
  gone : ∀ x ∈ S, c' x = none
  kept : Set.EqOn c' c Sᶜ

namespace Cleared

variable {S T : Set X} {c c' c'' : X → Option (ℕ × β)}

theorem refl : Cleared ∅ c c := ⟨fun _ hx => hx.elim, fun _ _ => rfl⟩

theorem one [DecidableEq X] (c : X → Option (ℕ × β)) (x : X) :
    Cleared {x} c (Function.update c x none) where
  gone y hy := by
    obtain rfl : y = x := hy
    exact Function.update_self y _ c
  kept y hy := Function.update_of_ne hy _ c

/-- One release after another. -/
theorem union (h : Cleared S c c') (h' : Cleared T c' c'') : Cleared (S ∪ T) c c'' where
  gone x hx := by
    by_cases hT : x ∈ T
    · exact h'.gone x hT
    · rw [h'.kept hT]
      exact h.gone x (hx.resolve_right hT)
  kept x hx := by
    have hS : x ∉ S := fun hS => hx (Or.inl hS)
    have hT : x ∉ T := fun hT => hx (Or.inr hT)
    rw [h'.kept hT, h.kept hS]

/-- Names that have no cell may be counted as cleared. -/
theorem mono (h : Cleared S c c') (hST : S ⊆ T) (hnone : ∀ x ∈ T, x ∉ S → c x = none) :
    Cleared T c c' where
  gone x hx := by
    by_cases hS : x ∈ S
    · exact h.gone x hS
    · rw [h.kept hS]
      exact hnone x hx hS
  kept x hx := h.kept fun hS => hx (hST hS)

end Cleared
