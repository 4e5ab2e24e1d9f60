/-
# Two labellings with the same classes

Two partial labellings of one set, by labels of any kind.  `SameClasses f g` says
that on the elements that `g` labels, two have one label in `f` if and only if they
have one in `g`: the two labellings divide these elements into the same classes.
The lemmas say how that is kept when an element joins the class of another one,
becomes a class of its own or is dropped.
-/

import Mathlib.Logic.Function.Basic
import Mathlib.Tactic.Common

namespace Labelling

variable {ι α β : Type}

/-- On the elements that `g` labels, `f` and `g` have the same classes. -/
def SameClasses (f : ι → Option α) (g : ι → Option β) : Prop :=
  ∀ p q, (g p).isSome → (g q).isSome → ((∃ a, f p = some a ∧ f q = some a) ↔ g p = g q)

namespace SameClasses

variable {f f' : ι → Option α} {g : ι → Option β}

/-- Elements that `g` labels have a label in `f`. -/
theorem isSome (h : SameClasses f g) {p : ι} (hp : (g p).isSome) : ∃ a, f p = some a :=
  ((h p p hp hp).mpr rfl).imp fun _ ha => ha.1

/-- The labels in `f` of other elements do not matter. -/
theorem congr (h : SameClasses f g) (hf : ∀ p, (g p).isSome → f' p = f p) : SameClasses f' g := by
  intro p q hp hq
  rw [hf p hp, hf q hq]
  exact h p q hp hq

variable [DecidableEq ι]

theorem update_eq {γ : Type} (f : ι → γ) (c p : ι) :
    Function.update f c (f p) = fun q => f (if q = c then p else q) := by
  funext q
  rw [Function.update_apply]
  split_ifs <;> rfl

/-- **An element joins** the class of another one. -/
theorem join (h : SameClasses f g) (c p : ι) :
    SameClasses (Function.update f c (f p)) (Function.update g c (g p)) := by
  rw [update_eq, update_eq]
  exact fun q r hq hr => h _ _ hq hr

/-- **An element becomes a class of its own.** -/
theorem separate (h : SameClasses f g) {c : ι} {a : α} {b : β}
    (ha : ∀ q, q ≠ c → (g q).isSome → f q ≠ some a) (hb : ∀ q, q ≠ c → g q ≠ some b) :
    SameClasses (Function.update f c (some a)) (Function.update g c (some b)) := by
  intro p q hp hq
  rw [Function.update_apply] at hp hq
  simp only [Function.update_apply]
  split_ifs at hp hq ⊢ with hpc hqc hqc
  · exact iff_of_true ⟨a, rfl, rfl⟩ rfl
  · refine iff_of_false ?_ (hb q hqc).symm
    rintro ⟨x, hx, hqx⟩
    exact ha q hqc hq (hqx.trans hx.symm)
  · refine iff_of_false ?_ (hb p hpc)
    rintro ⟨x, hpx, hx⟩
    exact ha p hpc hp (hpx.trans hx.symm)
  · exact h p q hp hq

/-- **An element is dropped.** -/
theorem drop (h : SameClasses f g) (c : ι) : SameClasses f (Function.update g c none) := by
  have hother : ∀ x, (Function.update g c none x).isSome → x ≠ c := by
    rintro x hx rfl
    rw [Function.update_self] at hx
    cases hx
  intro p q hp hq
  have hpc := hother p hp
  have hqc := hother q hq
  rw [Function.update_of_ne hpc] at hp ⊢
  rw [Function.update_of_ne hqc] at hq ⊢
  exact h p q hp hq

end SameClasses

end Labelling
