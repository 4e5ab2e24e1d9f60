/-
# Weights of a pool of processes

A counter that is incremented before a process starts and decremented when it is
done says how much is still going on if every process is given a weight, and what
the steps do to the counter is what they do to the total weight.  These are the
laws of such totals over a pool that grows at its end: replacing a process changes
the total by the difference of the two weights (`total_set`), and a total of zero
means that all weights are (`total_eq_zero_iff`).
-/

import Mathlib.Data.List.Basic

namespace Weights

variable {α : Type} {w v : α → ℕ}

/-- The total weight of a pool. -/
def total (w : α → ℕ) : List α → ℕ
  | [] => 0
  | a :: pool => w a + total w pool

@[simp] theorem total_nil : total w [] = 0 := rfl

@[simp] theorem total_cons (a : α) (pool : List α) : total w (a :: pool) = w a + total w pool :=
  rfl

@[simp] theorem total_append (pool pool' : List α) :
    total w (pool ++ pool') = total w pool + total w pool' := by
  induction pool with
  | nil => simp
  | cons a pool ih =>
      rw [List.cons_append, total_cons, total_cons, ih]
      omega

/-- **One process is replaced:** the total loses the old weight and gains the new one. -/
theorem total_set {pool : List α} {i : ℕ} {a : α} (h : pool[i]? = some a) (b : α) :
    total w (pool.set i b) + w a = total w pool + w b := by
  induction pool generalizing i with
  | nil => simp at h
  | cons c pool ih =>
      cases i with
      | zero =>
          obtain rfl : c = a := by simpa using h
          rw [List.set_cons_zero, total_cons, total_cons]
          omega
      | succ i =>
          have htail := ih (show pool[i]? = some a by simpa using h)
          rw [List.set_cons_succ, total_cons, total_cons]
          omega

/-- A process weighs no more than all together. -/
theorem le_total {pool : List α} {i : ℕ} {a : α} (h : pool[i]? = some a) : w a ≤ total w pool := by
  induction pool generalizing i with
  | nil => simp at h
  | cons c pool ih =>
      rw [total_cons]
      cases i with
      | zero =>
          obtain rfl : c = a := by simpa using h
          omega
      | succ i =>
          have htail := ih (show pool[i]? = some a by simpa using h)
          omega

/-- Two processes weigh no more than all together. -/
theorem add_le_total {pool : List α} {i j : ℕ} {a b : α} (hij : i ≠ j) (hi : pool[i]? = some a)
    (hj : pool[j]? = some b) : w a + w b ≤ total w pool := by
  induction pool generalizing i j with
  | nil => simp at hi
  | cons c pool ih =>
      rw [total_cons]
      cases i with
      | zero =>
          obtain ⟨k, rfl⟩ : ∃ k, j = k + 1 := ⟨j - 1, by omega⟩
          obtain rfl : c = a := by simpa using hi
          have hle : w b ≤ total w pool := le_total (show pool[k]? = some b by simpa using hj)
          omega
      | succ i =>
          have hi : pool[i]? = some a := by simpa using hi
          cases j with
          | zero =>
              obtain rfl : c = b := by simpa using hj
              have hle : w a ≤ total w pool := le_total hi
              omega
          | succ j =>
              have htail := ih (show i ≠ j by omega) hi (show pool[j]? = some b by simpa using hj)
              omega

/-- Where every weight is at most `k` times another, so is the total. -/
theorem total_le_mul {k : ℕ} (h : ∀ a, w a ≤ k * v a) (pool : List α) :
    total w pool ≤ k * total v pool := by
  induction pool with
  | nil => simp
  | cons a pool ih =>
      have ha := h a
      rw [total_cons, total_cons, Nat.mul_add]
      omega

/-- **A total of zero** says that nothing weighs anything. -/
theorem total_eq_zero_iff {pool : List α} : total w pool = 0 ↔ ∀ a ∈ pool, w a = 0 := by
  induction pool with
  | nil => simp
  | cons a pool ih => rw [total_cons, Nat.add_eq_zero_iff, ih, List.forall_mem_cons]

end Weights
