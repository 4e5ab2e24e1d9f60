/-
# Counting references

A finite map of holders, each of which refers to a counter in an arena; several of
them may refer to the same one.  `Counted r t m` says that the counter of every
holder in `t` holds the number of holders that refer to it, where `r` gives the
address.  The lemmas are one for each way in which a holder comes or goes: it
joins the holders of a counter, it starts with a counter of its own, it leaves.
-/

import Iotrace.Library.Arena
import Iotrace.Library.FiniteMap

namespace RefCount

open FiniteMap

variable {α β : Type}

/-- The number of holders that refer to the counter at `a`. -/
def holders (r : β → ℕ) (t : Finmap fun _ : α => β) (a : ℕ) : ℕ := count (fun v => r v == a) t

variable [DecidableEq α]

/-- The counter of every holder holds the number of its holders. -/
def Counted (r : β → ℕ) (t : Finmap fun _ : α => β) (m : Arena ℤ) : Prop :=
  ∀ k v, t.lookup k = some v → m.cell (r v) = some (holders r t (r v) : ℤ)

section Holders

variable {r : β → ℕ} {t : Finmap fun _ : α => β} {k : α} {v : β}

theorem holders_erase_add (h : t.lookup k = some v) (a : ℕ) :
    holders r (t.erase k) a + (if r v = a then 1 else 0) = holders r t a := by
  have hcount := count_erase_add (fun v => r v == a) h
  unfold holders
  rw [← hcount]
  split_ifs with ha <;> simp [ha]

theorem holders_insert (h : t.lookup k = none) (v : β) (a : ℕ) :
    holders r (t.insert k v) a = holders r t a + if r v = a then 1 else 0 := by
  unfold holders
  rw [count_insert, erase_of_lookup_none h]
  split_ifs with ha <;> simp [ha]

/-- A holder may change if it keeps its counter. -/
theorem holders_replace (h : t.lookup k = some v) {v' : β} (hr : r v' = r v) (a : ℕ) :
    holders r (t.insert k v') a = holders r t a := by
  rw [← holders_erase_add h]
  unfold holders
  rw [count_insert, hr]
  split_ifs with ha <;> simp [ha]

theorem holders_pos (h : t.lookup k = some v) : 0 < holders r t (r v) :=
  count_pos _ h (beq_self_eq_true _)

/-- A counter that is referred to twice has another holder. -/
theorem exists_other_holder (h : t.lookup k = some v) (htwo : 1 < holders r t (r v)) :
    ∃ k' v', k' ≠ k ∧ t.lookup k' = some v' ∧ r v' = r v := by
  have herase := holders_erase_add (r := r) h (r v)
  rw [if_pos rfl] at herase
  by_contra hno
  have hzero : holders r (t.erase k) (r v) = 0 := by
    refine (count_eq_zero_iff _ _).mpr fun k' v' hlook => ?_
    rw [lookup_erase_eq] at hlook
    split_ifs at hlook with hk
    by_contra hr
    exact hno ⟨k', v', hk, hlook, by simpa using hr⟩
  omega

/-- A counter that is referred to once has one holder. -/
theorem eq_of_holders_eq_one (h : t.lookup k = some v) (hone : holders r t (r v) = 1) {k' : α}
    {v' : β} (h' : t.lookup k' = some v') (hr : r v' = r v) : k' = k := by
  by_contra hne
  have htwo := one_lt_count (fun x => r x == r v) h (beq_self_eq_true _) h' (by simp [hr])
    (Ne.symm hne)
  unfold holders at hone
  omega

end Holders

namespace Counted

variable {r : β → ℕ} {t : Finmap fun _ : α => β} {m : Arena ℤ} {k : α} {v : β}

/-- **A holder joins** those of another holder's counter. -/
theorem insert_shared (h : Counted r t m) (hk : t.lookup k = none) {k' : α} {v' : β}
    (hk' : t.lookup k' = some v') (hr : r v = r v') :
    Counted r (t.insert k v) (m.write (r v') (holders r t (r v') + 1)) := by
  have hcell := h k' v' hk'
  intro x w hx
  rw [holders_insert hk, hr]
  have hw : x ≠ k → m.cell (r w) = some (holders r t (r w) : ℤ) := fun hne =>
    h x w (by rwa [Finmap.lookup_insert_of_ne _ hne] at hx)
  by_cases heq : r w = r v'
  · rw [heq, if_pos rfl, Arena.write_cell_self hcell]
    push_cast
    rfl
  · have hxk : x ≠ k := by
      rintro rfl
      rw [Finmap.lookup_insert] at hx
      obtain rfl := Option.some.inj hx
      exact heq hr
    rw [if_neg (Ne.symm heq), Arena.write_cell_ne _ _ heq, hw hxk, Nat.add_zero]

/-- **A holder starts with a counter of its own.** -/
theorem insert_fresh (h : Counted r t m) (hk : t.lookup k = none) (hr : r v = m.next) :
    Counted r (t.insert k v) ((m.alloc 0).write m.next 1) := by
  have hother : ∀ x w, t.lookup x = some w → r w ≠ m.next := fun x w hx =>
    Arena.ne_next (h x w hx)
  intro x w hx
  rw [holders_insert hk, hr]
  rw [lookup_insert_eq] at hx
  split_ifs at hx with hxk
  · obtain rfl := Option.some.inj hx
    have hzero : holders r t m.next = 0 :=
      (count_eq_zero_iff _ _).mpr fun x w hx => by simpa using hother x w hx
    rw [hr, if_pos rfl, hzero, Arena.write_cell_self (Arena.alloc_cell_self m 0)]
    rfl
  · have hne := hother x w hx
    rw [if_neg (Ne.symm hne), Arena.write_cell_ne _ _ hne, Arena.alloc_cell_ne _ _ hne, h x w hx,
      Nat.add_zero]

/-- A holder changes and keeps its counter. -/
theorem replace (h : Counted r t m) (hk : t.lookup k = some v) {v' : β} (hr : r v' = r v) :
    Counted r (t.insert k v') m := by
  intro x w hx
  rw [holders_replace hk hr]
  rw [lookup_insert_eq] at hx
  split_ifs at hx
  · obtain rfl := Option.some.inj hx
    rw [hr]
    exact h k v hk
  · exact h x w hx

/-- **A holder leaves.** -/
theorem erase (h : Counted r t m) (hk : t.lookup k = some v) :
    Counted r (t.erase k) (m.write (r v) (holders r t (r v) - 1)) := by
  intro x w hx
  rw [lookup_erase_eq] at hx
  split_ifs at hx with hxk
  have herase := holders_erase_add (r := r) hk (r w)
  by_cases heq : r w = r v
  · rw [if_pos heq.symm] at herase
    rw [heq, Arena.write_cell_self (h k v hk), ← heq, ← herase]
    push_cast
    congr 1
    omega
  · rw [if_neg (Ne.symm heq)] at herase
    rw [Arena.write_cell_ne _ _ heq, h x w hx, ← herase, Nat.add_zero]

/-- **The last holder leaves**, and its counter is freed. -/
theorem erase_free (h : Counted r t m) (hk : t.lookup k = some v)
    (hone : holders r t (r v) = 1) (n : ℤ) :
    Counted r (t.erase k) ((m.write (r v) n).free (r v)) := by
  intro x w hx
  have hx' := hx
  rw [lookup_erase_eq] at hx'
  split_ifs at hx' with hxk
  have hne : r w ≠ r v := fun heq => hxk (eq_of_holders_eq_one hk hone hx' heq)
  rw [Arena.free_cell_ne _ hne, Arena.write_cell_ne _ _ hne, h x w hx', ← holders_erase_add hk,
    if_neg (Ne.symm hne), Nat.add_zero]

end Counted

end RefCount
