/-
# Memory cells of one type, allocated fresh and freed

An `Arena α` is the part of a heap that holds objects of type `α`.  `alloc`
gives an address that has never been used, `free` takes the object away, and a
freed address stays empty: reading, writing or freeing it again finds `none`,
which is how a use after free or a double free shows.  The field `fresh` keeps
every address from `next` on empty, so that the address of an allocation is
different from every address handed out before.
-/

import Mathlib.Tactic.Common

/-- Cells holding values of type `α`; addresses from `next` on are unused. -/
structure Arena (α : Type) where
  /-- The object at an address, `none` before its allocation and after its release. -/
  cell : Nat → Option α
  /-- The next address to hand out. -/
  next : Nat
  /-- No address from `next` on is in use. -/
  fresh : ∀ a, next ≤ a → cell a = none

namespace Arena

variable {α : Type}

/-- No object is allocated. -/
def empty : Arena α := ⟨fun _ => none, 0, fun _ _ => rfl⟩

/-- Allocate an object holding `v`, at the address `m.next`. -/
def alloc (m : Arena α) (v : α) : Arena α where
  cell := fun b => if b = m.next then some v else m.cell b
  next := m.next + 1
  fresh := fun a ha => by
    have hne : a ≠ m.next := by omega
    rw [if_neg hne]
    exact m.fresh a (by omega)

/-- Store `v` in the object at `a`; nothing happens where there is no object. -/
def write (m : Arena α) (a : Nat) (v : α) : Arena α where
  cell := fun b => if b = a then (m.cell a).map fun _ => v else m.cell b
  next := m.next
  fresh := fun b hb => by
    split_ifs with h
    · subst h
      rw [m.fresh b hb, Option.map_none]
    · exact m.fresh b hb

/-- Release the object at `a`. -/
def free (m : Arena α) (a : Nat) : Arena α where
  cell := fun b => if b = a then none else m.cell b
  next := m.next
  fresh := fun b hb => by
    split_ifs
    · rfl
    · exact m.fresh b hb

/-- An address in use lies below `next`. -/
theorem lt_next {m : Arena α} {a : Nat} {v : α} (h : m.cell a = some v) : a < m.next := by
  by_contra hge
  rw [m.fresh a (by omega)] at h
  cases h

/-- An address in use is not the address of the next allocation. -/
theorem ne_next {m : Arena α} {a : Nat} {v : α} (h : m.cell a = some v) : a ≠ m.next :=
  Nat.ne_of_lt (lt_next h)

theorem ne_next_of_isSome {m : Arena α} {a : Nat} (h : (m.cell a).isSome) : a ≠ m.next := by
  obtain ⟨v, hv⟩ := Option.isSome_iff_exists.mp h
  exact ne_next hv

@[simp] theorem alloc_cell_self (m : Arena α) (v : α) : (m.alloc v).cell m.next = some v :=
  if_pos rfl

theorem alloc_cell_ne (m : Arena α) (v : α) {a : Nat} (h : a ≠ m.next) :
    (m.alloc v).cell a = m.cell a :=
  if_neg h

/-- An allocation leaves the objects that are there alone. -/
theorem alloc_cell_of_some {m : Arena α} {v w : α} {a : Nat} (h : m.cell a = some w) :
    (m.alloc v).cell a = some w := by
  rw [alloc_cell_ne m v (ne_next h), h]

@[simp] theorem alloc_next (m : Arena α) (v : α) : (m.alloc v).next = m.next + 1 := rfl

theorem write_cell_self {m : Arena α} {a : Nat} {v w : α} (h : m.cell a = some w) :
    (m.write a v).cell a = some v := by
  simp [write, h]

theorem write_cell_ne (m : Arena α) (v : α) {a b : Nat} (h : b ≠ a) :
    (m.write a v).cell b = m.cell b :=
  if_neg h

/-- A store neither allocates nor frees. -/
theorem write_cell_isSome (m : Arena α) (a b : Nat) (v : α) :
    ((m.write a v).cell b).isSome = (m.cell b).isSome := by
  by_cases hb : b = a
  · subst hb
    cases h : m.cell b <;> simp [write, h]
  · rw [write_cell_ne m v hb]

@[simp] theorem write_next (m : Arena α) (a : Nat) (v : α) : (m.write a v).next = m.next := rfl

@[simp] theorem free_cell_self (m : Arena α) (a : Nat) : (m.free a).cell a = none := if_pos rfl

theorem free_cell_ne (m : Arena α) {a b : Nat} (h : b ≠ a) : (m.free a).cell b = m.cell b :=
  if_neg h

@[simp] theorem free_next (m : Arena α) (a : Nat) : (m.free a).next = m.next := rfl

/-- Storing what is there already changes nothing. -/
theorem write_same {m : Arena α} {a : Nat} {v : α} (h : m.cell a = some v) : m.write a v = m := by
  rcases m with ⟨cell, next, fresh⟩
  have hcell : (fun b => if b = a then (cell a).map fun _ => v else cell b) = cell := by
    funext b
    by_cases hb : b = a
    · have h' : cell a = some v := h
      rw [if_pos hb, hb, h', Option.map_some]
    · rw [if_neg hb]
  simp only [write, hcell]

/-- The second of two stores is the one that counts. -/
theorem write_write (m : Arena α) (a : Nat) (v w : α) : (m.write a v).write a w = m.write a w := by
  have hcell : ((m.write a v).write a w).cell = (m.write a w).cell := by
    funext b
    by_cases hb : b = a
    · simp [write, hb, Function.comp_def]
    · rw [write_cell_ne _ _ hb, write_cell_ne _ _ hb, write_cell_ne _ _ hb]
  simpa [write] using hcell

end Arena
