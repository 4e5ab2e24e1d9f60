/-
# Runs of a step function that may fail

A system is a function `step : S → A → Except E S`: from a state, an action
leads to one state or to a failure that ends the run.  A run is a list of
actions, and its result is `List.foldlM`.  Two predicates read a run from its
start: `Along` says that a condition on the state and the action holds wherever
a step is taken, `Always` that a property holds in every state reached.

`Along.always` is the invariant rule, `always_iff_along` its exact form: where
one step keeps a property if and only if a condition holds, a run keeps it in
every state if and only if every step of the run meets the condition.
-/

import Mathlib.Logic.Basic
import Mathlib.Data.List.Basic
import Mathlib.Algebra.BigOperators.Group.List.Basic

namespace Runs

variable {S A E : Type} {step : S → A → Except E S}

/-- `P` holds of the state and the action of every step that the run takes. -/
def Along (step : S → A → Except E S) (P : S → A → Prop) : S → List A → Prop
  | _, [] => True
  | s, a :: l => P s a ∧ ∀ s', step s a = .ok s' → Along step P s' l

/-- `I` holds in every state that the run reaches, the first and the last included. -/
def Always (step : S → A → Except E S) (I : S → Prop) : S → List A → Prop
  | s, [] => I s
  | s, a :: l => I s ∧ ∀ s', step s a = .ok s' → Always step I s' l

/-- One step of `List.foldlM` in `Except`: a failing step ends the run. -/
theorem foldlM_cons_ok {s s' : S} {a : A} {l : List A} :
    (a :: l).foldlM step s = .ok s' ↔ ∃ t, step s a = .ok t ∧ l.foldlM step t = .ok s' := by
  rw [List.foldlM_cons]
  cases h : step s a with
  | error e => simp [bind, Except.bind]
  | ok t => simp [bind, Except.bind]

/-- A run of `l₁ ++ l₂` is a run of `l₁` followed by a run of `l₂`. -/
theorem foldlM_append_ok {s s' : S} {l₁ l₂ : List A} :
    (l₁ ++ l₂).foldlM step s = .ok s' ↔
      ∃ t, l₁.foldlM step s = .ok t ∧ l₂.foldlM step t = .ok s' := by
  induction l₁ generalizing s with
  | nil => simp [pure, Except.pure]
  | cons a l ih =>
      rw [List.cons_append, foldlM_cons_ok]
      constructor
      · rintro ⟨t, ht, h⟩
        obtain ⟨u, hu, h⟩ := ih.mp h
        exact ⟨u, foldlM_cons_ok.mpr ⟨t, ht, hu⟩, h⟩
      · rintro ⟨u, hu, h⟩
        obtain ⟨t, ht, hu⟩ := foldlM_cons_ok.mp hu
        exact ⟨t, ht, ih.mpr ⟨u, hu, h⟩⟩

theorem Always.head {I : S → Prop} {s : S} {l : List A} (h : Always step I s l) : I s := by
  cases l with
  | nil => exact h
  | cons a l => exact h.1

/-- What holds in every state reached holds in the last one. -/
theorem Always.last {I : S → Prop} {s s' : S} {l : List A} (h : Always step I s l)
    (hrun : l.foldlM step s = .ok s') : I s' := by
  induction l generalizing s with
  | nil =>
      obtain rfl : s = s' := by simpa [pure, Except.pure] using hrun
      exact h
  | cons a l ih =>
      obtain ⟨t, ht, hrun⟩ := foldlM_cons_ok.mp hrun
      exact ih (h.2 t ht) hrun

theorem Always.mono {I J : S → Prop} (hIJ : ∀ s, I s → J s) {s : S} {l : List A}
    (h : Always step I s l) : Always step J s l := by
  induction l generalizing s with
  | nil => exact hIJ s h
  | cons a l ih => exact ⟨hIJ s h.1, fun s' hs' => ih (h.2 s' hs')⟩

theorem Along.mono {P Q : S → A → Prop} (hPQ : ∀ s a, P s a → Q s a) {s : S} {l : List A}
    (h : Along step P s l) : Along step Q s l := by
  induction l generalizing s with
  | nil => trivial
  | cons a l ih => exact ⟨hPQ s a h.1, fun s' hs' => ih (h.2 s' hs')⟩

/-- A run is walked step by step where its steps are known. -/
theorem Along.cons {P : S → A → Prop} {s s' : S} {a : A} {l : List A} (hP : P s a)
    (hs : step s a = .ok s') (h : Along step P s' l) : Along step P s (a :: l) := by
  refine ⟨hP, fun t ht => ?_⟩
  obtain rfl : s' = t := Except.ok.inj (hs.symm.trans ht)
  exact h

/-- A condition that nothing can break. -/
theorem Along.of_forall {P : S → A → Prop} (h : ∀ s a, P s a) {s : S} {l : List A} :
    Along step P s l := by
  induction l generalizing s with
  | nil => trivial
  | cons a l ih => exact ⟨h s a, fun _ _ => ih⟩

/-- A condition holds along two runs one after the other. -/
theorem along_append {P : S → A → Prop} {s : S} {l₁ l₂ : List A} :
    Along step P s (l₁ ++ l₂) ↔
      Along step P s l₁ ∧ ∀ t, l₁.foldlM step s = .ok t → Along step P t l₂ := by
  induction l₁ generalizing s with
  | nil =>
      refine ⟨fun h => ⟨trivial, fun t ht => ?_⟩, fun h => h.2 s rfl⟩
      obtain rfl : s = t := Except.ok.inj ht
      exact h
  | cons a l ih =>
      constructor
      · rintro ⟨hP, h⟩
        refine ⟨⟨hP, fun s' hs' => (ih.mp (h s' hs')).1⟩, fun t ht => ?_⟩
        obtain ⟨s', hs', ht⟩ := foldlM_cons_ok.mp ht
        exact (ih.mp (h s' hs')).2 t ht
      · rintro ⟨⟨hP, h⟩, hrest⟩
        exact ⟨hP, fun s' hs' => ih.mpr
          ⟨h s' hs', fun t ht => hrest t (foldlM_cons_ok.mpr ⟨s', hs', ht⟩)⟩⟩

theorem Along.and {P Q : S → A → Prop} {s : S} {l : List A} (hP : Along step P s l)
    (hQ : Along step Q s l) : Along step (fun s a => P s a ∧ Q s a) s l := by
  induction l generalizing s with
  | nil => trivial
  | cons a l ih => exact ⟨⟨hP.1, hQ.1⟩, fun s' hs' => ih (hP.2 s' hs') (hQ.2 s' hs')⟩

/-- **The invariant rule.**  An invariant that every step meeting `P` keeps
holds in every state of a run whose steps all meet `P`. -/
theorem Along.always {P : S → A → Prop} {I : S → Prop}
    (hstep : ∀ s a s', I s → P s a → step s a = .ok s' → I s') {s : S} {l : List A}
    (h : Along step P s l) (hs : I s) : Always step I s l := by
  induction l generalizing s with
  | nil => exact hs
  | cons a l ih => exact ⟨hs, fun s' hs' => ih (h.2 s' hs') (hstep s a s' hs h.1 hs')⟩

/-- **The invariant rule, with what it gives for each step.**  Where the
invariant and `P` also give `Q` for the step taken, every step of the run has
`Q`. -/
theorem Along.along {P Q : S → A → Prop} {I : S → Prop}
    (hstep : ∀ s a s', I s → P s a → step s a = .ok s' → I s')
    (hQ : ∀ s a, I s → P s a → Q s a) {s : S} {l : List A}
    (h : Along step P s l) (hs : I s) : Along step Q s l := by
  induction l generalizing s with
  | nil => trivial
  | cons a l ih =>
      exact ⟨hQ s a hs h.1, fun s' hs' => ih (h.2 s' hs') (hstep s a s' hs h.1 hs')⟩

/-- **A run whose steps all succeed reaches its end.** -/
theorem Along.run_ok {P : S → A → Prop} (hok : ∀ s a, P s a → ∃ s', step s a = .ok s')
    {s : S} {l : List A} (h : Along step P s l) : ∃ s', l.foldlM step s = .ok s' := by
  induction l generalizing s with
  | nil => exact ⟨s, rfl⟩
  | cons a l ih =>
      obtain ⟨t, ht⟩ := hok s a h.1
      obtain ⟨s', hs'⟩ := ih (h.2 t ht)
      exact ⟨s', foldlM_cons_ok.mpr ⟨t, ht, hs'⟩⟩

/-- **The exact invariant rule.**  Let `J` be the property of interest and `I` an
invariant that gives it.  Where a step in the scope `Q` keeps `I` if it meets
`P`, and breaks `J` if it does not, a run in the scope has `J` in every state if
and only if all its steps meet `P`. -/
theorem always_iff_along {P Q : S → A → Prop} {I J : S → Prop} (hIJ : ∀ s, I s → J s)
    (hstep : ∀ s a, I s → Q s a →
      ∃ s', step s a = .ok s' ∧ (P s a → I s') ∧ (J s' → P s a))
    {s : S} {l : List A} (hQ : Along step Q s l) (hs : I s) :
    Always step J s l ↔ Along step P s l := by
  induction l generalizing s with
  | nil => exact ⟨fun _ => trivial, fun _ => hIJ s hs⟩
  | cons a l ih =>
      obtain ⟨t, ht, hkeep, hbreak⟩ := hstep s a hs hQ.1
      constructor
      · intro h
        have hP : P s a := hbreak (h.2 t ht).head
        refine ⟨hP, fun s' hs' => ?_⟩
        obtain rfl : t = s' := Except.ok.inj (ht.symm.trans hs')
        exact (ih (hQ.2 t ht) (hkeep hP)).mp (h.2 t ht)
      · intro h
        refine ⟨hIJ s hs, fun s' hs' => ?_⟩
        obtain rfl : t = s' := Except.ok.inj (ht.symm.trans hs')
        exact (ih (hQ.2 t ht) (hkeep h.1)).mpr (h.2 t ht)

/-- **The exact rule for an invariant and a property of the steps.**  Where one
step from a state with `I`, in the scope `Q`, has `R` and keeps `I` if and only
if it meets `P`, all steps of a run in the scope have `R` and all its states `I`
if and only if all steps meet `P`. -/
theorem always_and_along_iff {I : S → Prop} {P Q R : S → A → Prop}
    (hstep : ∀ s a, I s → Q s a → ((R s a ∧ ∀ s', step s a = .ok s' → I s') ↔ P s a))
    {s : S} {l : List A} (hQ : Along step Q s l) (hs : I s) :
    Always step I s l ∧ Along step R s l ↔ Along step P s l := by
  induction l generalizing s with
  | nil => exact ⟨fun _ => trivial, fun _ => ⟨hs, trivial⟩⟩
  | cons a l ih =>
      have hiff := hstep s a hs hQ.1
      constructor
      · rintro ⟨hI, hR⟩
        have hkeep : ∀ s', step s a = .ok s' → I s' := fun s' hs' => (hI.2 s' hs').head
        exact ⟨hiff.mp ⟨hR.1, hkeep⟩, fun s' hs' =>
          (ih (hQ.2 s' hs') (hkeep s' hs')).mp ⟨hI.2 s' hs', hR.2 s' hs'⟩⟩
      · intro h
        obtain ⟨hR, hkeep⟩ := hiff.mpr h.1
        have htail := fun s' hs' => (ih (hQ.2 s' hs') (hkeep s' hs')).mpr (h.2 s' hs')
        exact ⟨⟨hs, fun s' hs' => (htail s' hs').1⟩, hR, fun s' hs' => (htail s' hs').2⟩

/-- **The exact rule for an invariant:** where one step in the scope `Q` keeps `I`
if and only if it meets `P`, so does a run. -/
theorem invariant_iff_along {I : S → Prop} {P Q : S → A → Prop}
    (hstep : ∀ s a, I s → Q s a → ((∀ s', step s a = .ok s' → I s') ↔ P s a))
    {s : S} {l : List A} (hQ : Along step Q s l) (hs : I s) :
    Always step I s l ↔ Along step P s l := by
  have htrue : Along step (fun _ _ => True) s l := Along.of_forall fun _ _ => trivial
  rw [← always_and_along_iff (R := fun _ _ => True)
    (fun s a hI hq => (and_iff_right trivial).trans (hstep s a hI hq)) hQ hs]
  exact ⟨fun h => ⟨h, htrue⟩, fun h => h.1⟩

/-- What holds in every state reached, twice. -/
theorem Always.and {I J : S → Prop} {s : S} {l : List A} (hI : Always step I s l)
    (hJ : Always step J s l) : Always step (fun s => I s ∧ J s) s l := by
  induction l generalizing s with
  | nil => exact ⟨hI, hJ⟩
  | cons a l ih => exact ⟨⟨hI.1, hJ.1⟩, fun s' hs' => ih (hI.2 s' hs') (hJ.2 s' hs')⟩

/-- A run has a run to each of its parts. -/
theorem foldlM_prefix_ok {s s' : S} {l l₁ : List A} (h : l.foldlM step s = .ok s')
    (hpart : l₁ <+: l) : ∃ s₁, l₁.foldlM step s = .ok s₁ := by
  obtain ⟨l₂, rfl⟩ := hpart
  obtain ⟨s₁, hs₁, -⟩ := foldlM_append_ok.mp h
  exact ⟨s₁, hs₁⟩

/-- Two weights of the actions have the same total after every part of a run if and
only if they agree on every action of it. -/
theorem forall_prefix_sum_eq_iff {M : Type} [AddCommGroup M] {f g : A → M} {l : List A} :
    (∀ l₁, l₁ <+: l → (l₁.map f).sum = (l₁.map g).sum) ↔ ∀ a ∈ l, f a = g a := by
  constructor
  · intro h a ha
    obtain ⟨l₁, l₂, rfl⟩ := List.append_of_mem ha
    have hbefore := h l₁ (List.prefix_append _ _)
    have hafter := h (l₁ ++ [a]) ⟨l₂, by rw [List.append_assoc, List.singleton_append]⟩
    simpa [hbefore] using hafter
  · intro h l₁ hl₁
    rw [List.map_congr_left fun a ha => h a (hl₁.subset ha)]

/-! ### What a view of the state depends on -/

section View

variable {V : Type} {view : S → V}

/-- **A view that steps respect is respected by runs.** -/
theorem foldlM_map_congr
    (hview : ∀ s s' a, view s = view s' → (step s a).map view = (step s' a).map view)
    {s s' : S} (h : view s = view s') (l : List A) :
    (l.foldlM step s).map view = (l.foldlM step s').map view := by
  induction l generalizing s s' with
  | nil => exact congrArg Except.ok h
  | cons a l ih =>
      rw [List.foldlM_cons, List.foldlM_cons]
      have hstep := hview s s' a h
      cases ht : step s a with
      | error e =>
          cases ht' : step s' a with
          | error e' =>
              rw [ht, ht'] at hstep
              exact congrArg Except.error (Except.error.inj hstep)
          | ok t' => rw [ht, ht'] at hstep; cases hstep
      | ok t =>
          cases ht' : step s' a with
          | error e' => rw [ht, ht'] at hstep; cases hstep
          | ok t' =>
              rw [ht, ht'] at hstep
              exact ih (Except.ok.inj hstep)

/-- **Steps that a view does not see can be left out of a run.** -/
theorem foldlM_map_filter
    (hview : ∀ s s' a, view s = view s' → (step s a).map view = (step s' a).map view)
    {keep : A → Bool} {s : S} {l : List A}
    (h : Along step (fun s a => keep a = false → ∃ s', step s a = .ok s' ∧ view s' = view s) s l) :
    (l.foldlM step s).map view = ((l.filter keep).foldlM step s).map view := by
  induction l generalizing s with
  | nil => rfl
  | cons a l ih =>
      cases ha : keep a with
      | false =>
          obtain ⟨s', hs', hsame⟩ := h.1 ha
          rw [List.filter_cons_of_neg (by simp [ha]), List.foldlM_cons, hs']
          exact (ih (h.2 s' hs')).trans (foldlM_map_congr hview hsame _)
      | true =>
          rw [List.filter_cons_of_pos ha, List.foldlM_cons, List.foldlM_cons]
          cases hs' : step s a with
          | error e => rfl
          | ok s' => exact ih (h.2 s' hs')

end View

end Runs
