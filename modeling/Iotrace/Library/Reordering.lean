/-
# Taking a step early

In a run that takes `b` and later `a`, the action `a` can be taken first if it
does not depend on what comes before it and nothing before it depends on `a`
(`Overtakes`).  `foldlM_overtake` moves an action to the front of a run past all
actions that it overtakes.

`CellOp` is the case of a finite map whose actions read one entry and write one
entry: two of them can be exchanged unless they write the same entry or one reads
what the other writes.
-/

import Iotrace.Library.Runs
import Iotrace.Library.FiniteMap

namespace Runs

variable {S A E : Type} {step : S → A → Except E S}

/-- Where `b` and then `a` succeed, `a` and then `b` succeed with the same result. -/
def Overtakes (step : S → A → Except E S) (a b : A) : Prop :=
  ∀ s t r, step s b = .ok t → step t a = .ok r → ∃ t', step s a = .ok t' ∧ step t' b = .ok r

/-- **An action moves to the front** of the run past all actions that it overtakes. -/
theorem foldlM_overtake {a : A} {l₁ l₂ : List A} {s r : S}
    (h : ∀ b ∈ l₁, Overtakes step a b) (hrun : (l₁ ++ a :: l₂).foldlM step s = .ok r) :
    ∃ t, step s a = .ok t ∧ (l₁ ++ l₂).foldlM step t = .ok r := by
  induction l₁ generalizing s with
  | nil => exact foldlM_cons_ok.mp hrun
  | cons b l₁ ih =>
      obtain ⟨u, hu, hrun⟩ := foldlM_cons_ok.mp hrun
      obtain ⟨v, hv, hrest⟩ := ih (fun c hc => h c (List.mem_cons_of_mem b hc)) hrun
      obtain ⟨t, ht, hb⟩ := h b List.mem_cons_self s u v hu hv
      exact ⟨t, ht, foldlM_cons_ok.mpr ⟨v, hb, hrest⟩⟩

end Runs

namespace FiniteMap

variable {α β E : Type} [DecidableEq α]

/-- Store an entry under a key, or remove the one that is there. -/
def set (t : Finmap fun _ : α => β) (k : α) : Option β → Finmap fun _ : α => β
  | some v => t.insert k v
  | none => t.erase k

theorem lookup_set (t : Finmap fun _ : α => β) (k x : α) (v : Option β) :
    (set t k v).lookup x = if x = k then v else t.lookup x := by
  cases v with
  | none => exact lookup_erase_eq t k x
  | some v => exact lookup_insert_eq t k x v

/-- An action that computes the entry of the key `target` from the one of the key
`source`, if it has a source. -/
structure CellOp (α β E : Type) where
  source : Option α
  target : α
  out : Option β → Except E (Option β)

/-- What the action reads. -/
def CellOp.read (a : CellOp α β E) (t : Finmap fun _ : α => β) : Option β :=
  a.source.bind fun k => t.lookup k

/-- The action on a map. -/
def CellOp.run (t : Finmap fun _ : α => β) (a : CellOp α β E) :
    Except E (Finmap fun _ : α => β) :=
  (a.out (a.read t)).map (set t a.target)

/-- One action writes what the other writes or reads. -/
def CellOp.Conflicts (a b : CellOp α β E) : Prop :=
  a.target = b.target ∨ a.source = some b.target ∨ b.source = some a.target

theorem CellOp.read_set {a : CellOp α β E} {k : α} (h : a.source ≠ some k)
    (t : Finmap fun _ : α => β) (v : Option β) : a.read (set t k v) = a.read t := by
  unfold read
  cases hsource : a.source with
  | none => rfl
  | some x =>
      have hne : x ≠ k := by
        rintro rfl
        exact h hsource
      rw [Option.bind_some, Option.bind_some, lookup_set, if_neg hne]

theorem set_comm {k k' : α} (h : k ≠ k') (t : Finmap fun _ : α => β) (v v' : Option β) :
    set (set t k v) k' v' = set (set t k' v') k v := by
  refine Finmap.ext_lookup fun x => ?_
  rw [lookup_set, lookup_set, lookup_set, lookup_set]
  split_ifs with h₁ h₂
  · exact absurd (h₂.symm.trans h₁) h
  · rfl
  · rfl
  · rfl

/-- **Actions without a conflict can be exchanged.** -/
theorem CellOp.overtakes {a b : CellOp α β E} (h : ¬a.Conflicts b) :
    Runs.Overtakes CellOp.run a b := by
  unfold Conflicts at h
  rw [not_or, not_or] at h
  obtain ⟨htarget, ha, hb⟩ := h
  intro s t r hrunb hruna
  unfold run at hrunb hruna
  cases hvb : b.out (b.read s) with
  | error e =>
      rw [hvb] at hrunb
      cases hrunb
  | ok vb =>
      rw [hvb] at hrunb
      obtain rfl := Except.ok.inj hrunb
      rw [read_set ha] at hruna
      cases hva : a.out (a.read s) with
      | error e =>
          rw [hva] at hruna
          cases hruna
      | ok va =>
          rw [hva] at hruna
          obtain rfl := Except.ok.inj hruna
          refine ⟨set s a.target va, by rw [run, hva]; rfl, ?_⟩
          rw [run, read_set hb, hvb, set_comm (Ne.symm htarget)]
          rfl

end FiniteMap
