/-
# Actions on stores, with what they read and write

An action on a store reads some of its places and writes some (`Action`): stores that agree
where it reads do not differ for it, and it leaves the places that it does not write.  Two
actions conflict if one of them writes what the other reads or writes; actions without a
conflict can be exchanged (`Action.enabled_run`, `Action.run_comm`).

`Action.stepAt` takes an action on one of a family of stores, where it can be taken.  In a
row of such steps one can be taken early if it has no conflict with those before it on its
own store (`Action.overtakes`), a store that no step writes stays as it is
(`Action.foldlM_of_no_writes`), and a store may be put into the family at a new number
(`Action.foldlM_update`).
-/

import Iotrace.Library.Reordering
import Mathlib.Logic.Function.Basic

namespace Footprint

open Runs

variable {α β ι : Type}

/-- An action on a store, which may not be possible in every store. -/
structure Action (α β : Type) where
  Enabled : (α → β) → Prop
  run : (α → β) → α → β
  Reads : α → Prop
  Writes : α → Prop
  enabled_congr : ∀ {s t : α → β}, (∀ x, Reads x → s x = t x) → Enabled s → Enabled t
  run_congr : ∀ {s t : α → β}, (∀ x, Reads x → s x = t x) → ∀ x, Writes x → run s x = run t x
  run_other : ∀ (s : α → β) (x : α), ¬Writes x → run s x = s x

namespace Action

/-- One action writes what the other reads or writes. -/
def Conflicts (a b : Action α β) : Prop :=
  ∃ x, a.Writes x ∧ (b.Reads x ∨ b.Writes x) ∨ b.Writes x ∧ a.Reads x

variable {a b : Action α β} {s : α → β}

theorem Conflicts.symm (h : a.Conflicts b) : b.Conflicts a := by
  obtain ⟨x, (⟨ha, hb | hb⟩ | ⟨hb, ha⟩)⟩ := h
  · exact ⟨x, Or.inr ⟨ha, hb⟩⟩
  · exact ⟨x, Or.inl ⟨hb, Or.inr ha⟩⟩
  · exact ⟨x, Or.inl ⟨hb, Or.inl ha⟩⟩

/-- An action that writes nothing leaves the store. -/
theorem run_of_no_writes (h : ∀ x, ¬a.Writes x) : a.run s = s :=
  funext fun x => a.run_other s x (h x)

/-- The other action does not change what is read. -/
theorem run_reads (h : ¬a.Conflicts b) (x : α) (hx : a.Reads x) : b.run s x = s x :=
  b.run_other s x fun hw => h ⟨x, Or.inr ⟨hw, hx⟩⟩

/-- **The other action decides nothing** about whether an action is possible. -/
theorem enabled_run (h : ¬a.Conflicts b) : a.Enabled (b.run s) ↔ a.Enabled s :=
  ⟨a.enabled_congr fun x hx => run_reads h x hx,
    a.enabled_congr fun x hx => (run_reads h x hx).symm⟩

/-- What one action writes does not depend on the other. -/
theorem run_run_of_writes (h : ¬a.Conflicts b) {x : α} (hx : a.Writes x) :
    a.run (b.run s) x = b.run (a.run s) x := by
  rw [a.run_congr (fun y hy => run_reads h y hy) x hx,
    b.run_other _ x fun hb => h ⟨x, Or.inl ⟨hx, Or.inr hb⟩⟩]

/-- **Actions without a conflict commute.** -/
theorem run_comm (h : ¬a.Conflicts b) : a.run (b.run s) = b.run (a.run s) := by
  funext x
  by_cases ha : a.Writes x
  · exact run_run_of_writes h ha
  by_cases hb : b.Writes x
  · exact (run_run_of_writes (fun h' => h h'.symm) hb).symm
  rw [a.run_other _ x ha, b.run_other _ x hb, b.run_other _ x hb, a.run_other _ x ha]

/-! ### A family of stores -/

variable [DecidableEq ι]

open Classical in
/-- An action on the store with the given number, where it is possible. -/
noncomputable def stepAt (T : ι → α → β) (e : ι × Action α β) : Except Unit (ι → α → β) :=
  if e.2.Enabled (T e.1) then .ok (Function.update T e.1 (e.2.run (T e.1))) else .error ()

variable {T T' : ι → α → β} {e : ι × Action α β} {l : List (ι × Action α β)}

theorem stepAt_ok : stepAt T e = .ok T' ↔
    e.2.Enabled (T e.1) ∧ T' = Function.update T e.1 (e.2.run (T e.1)) := by
  unfold stepAt
  split_ifs with h
  · rw [Except.ok.injEq]
    exact ⟨fun heq => ⟨h, heq.symm⟩, fun h' => h'.2.symm⟩
  · exact ⟨nofun, fun h' => absurd h'.1 h⟩

/-- **A step can be taken early** if it has no conflict with the other one on its store. -/
theorem overtakes {e f : ι × Action α β} (h : e.1 = f.1 → ¬e.2.Conflicts f.2) :
    Overtakes stepAt e f := by
  obtain ⟨k, a⟩ := e
  obtain ⟨k', b⟩ := f
  intro T T₁ T₂ hstepb hstepa
  obtain ⟨hb, rfl⟩ := stepAt_ok.mp hstepb
  obtain ⟨ha, rfl⟩ := stepAt_ok.mp hstepa
  by_cases hsame : k = k'
  · subst hsame
    have hconf : ¬a.Conflicts b := h rfl
    simp only [Function.update_self, Function.update_idem] at ha ⊢
    refine ⟨_, stepAt_ok.mpr ⟨(enabled_run hconf).mp ha, rfl⟩, stepAt_ok.mpr ⟨?_, ?_⟩⟩
    · simp only [Function.update_self]
      exact (enabled_run fun h' => hconf h'.symm).mpr hb
    · simp only [Function.update_self, Function.update_idem]
      rw [run_comm hconf]
  · simp only [Function.update_of_ne hsame] at ha ⊢
    refine ⟨_, stepAt_ok.mpr ⟨ha, rfl⟩, stepAt_ok.mpr ⟨?_, ?_⟩⟩
    · simp only [Function.update_of_ne (Ne.symm hsame)]
      exact hb
    · simp only [Function.update_of_ne (Ne.symm hsame)]
      exact Function.update_comm (Ne.symm hsame) _ _ _

/-- **What a row of steps leaves of one store** is what its own actions leave of it. -/
theorem foldlM_apply (h : l.foldlM stepAt T = .ok T') (k : ι) :
    T' k = (l.filter fun e => e.1 = k).foldl (fun s e => e.2.run s) (T k) := by
  induction l generalizing T with
  | nil =>
      obtain rfl := Except.ok.inj h
      rfl
  | cons e l ih =>
      obtain ⟨T₁, he, hrun⟩ := foldlM_cons_ok.mp h
      obtain ⟨-, rfl⟩ := stepAt_ok.mp he
      rw [ih hrun]
      by_cases hk : e.1 = k
      · subst hk
        rw [Function.update_self, List.filter_cons_of_pos (by simp), List.foldl_cons]
      · rw [Function.update_of_ne (Ne.symm hk), List.filter_cons_of_neg (by simpa using hk)]

/-- **A store that no step writes** stays as it is. -/
theorem foldlM_of_no_writes (h : l.foldlM stepAt T = .ok T') {k : ι}
    (hl : ∀ e ∈ l, e.1 = k → ∀ x, ¬e.2.Writes x) : T' k = T k := by
  induction l generalizing T with
  | nil =>
      obtain rfl := Except.ok.inj h
      rfl
  | cons e l ih =>
      obtain ⟨T₁, he, hrun⟩ := foldlM_cons_ok.mp h
      obtain ⟨-, rfl⟩ := stepAt_ok.mp he
      rw [ih hrun fun f hf => hl f (List.mem_cons_of_mem e hf)]
      by_cases hk : k = e.1
      · rw [hk, Function.update_self, run_of_no_writes (hl e List.mem_cons_self hk.symm)]
      · exact Function.update_of_ne hk _ _

/-- **A new store** in the family is not touched by a row of steps on the others. -/
theorem foldlM_update (h : l.foldlM stepAt T = .ok T') {k : ι} (hl : ∀ e ∈ l, e.1 ≠ k)
    (s : α → β) :
    l.foldlM stepAt (Function.update T k s) = .ok (Function.update T' k s) := by
  induction l generalizing T with
  | nil =>
      obtain rfl := Except.ok.inj h
      rfl
  | cons e l ih =>
      obtain ⟨T₁, he, hrun⟩ := foldlM_cons_ok.mp h
      obtain ⟨henabled, rfl⟩ := stepAt_ok.mp he
      have hne := hl e List.mem_cons_self
      refine foldlM_cons_ok.mpr ⟨_, stepAt_ok.mpr ⟨?_, rfl⟩, ?_⟩
      · rw [Function.update_of_ne hne]
        exact henabled
      · rw [Function.update_of_ne hne, Function.update_comm (Ne.symm hne)]
        exact ih hrun fun f hf => hl f (List.mem_cons_of_mem e hf)

end Action

end Footprint
