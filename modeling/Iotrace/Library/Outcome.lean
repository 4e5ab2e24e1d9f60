/-
# What a computation that may fail ends with

`Ends Q R x` says that `x` either gives a value with `Q` or fails with an error that
has `R`.  Sequences are put together with `Ends.bind`, and a step function whose steps
all end in an invariant, or in an error with `R`, does so in every run
(`always_of_ends`).

`Agree R x y` compares two computations: they fail with the same error, or give values with
the relation `R`.  Two step functions whose steps agree have runs that agree (`Agree.run`).
-/

import Iotrace.Library.Runs

namespace Outcome

open Runs

variable {α β E : Type}

/-- A value with `Q`, or an error with `R`. -/
def Ends (Q : α → Prop) (R : E → Prop) : Except E α → Prop
  | .ok a => Q a
  | .error e => R e

variable {Q : α → Prop} {Q' : β → Prop} {R : E → Prop} {x : Except E α}

/-- **Sequencing:** what the first computation gives is what the second starts with. -/
theorem Ends.bind {f : α → Except E β} (hx : Ends Q R x) (hf : ∀ a, Q a → Ends Q' R (f a)) :
    Ends Q' R (x >>= f) := by
  cases x with
  | error e => exact hx
  | ok a => exact hf a hx

theorem Ends.mono {P : α → Prop} (hPQ : ∀ a, P a → Q a) (hx : Ends P R x) : Ends Q R x := by
  cases x with
  | error e => exact hx
  | ok a => exact hPQ a hx

/-- What holds of the value that is given. -/
theorem Ends.of_ok {a : α} (hx : Ends Q R x) (h : x = .ok a) : Q a := by
  subst h
  exact hx

/-- An error without `R` does not occur. -/
theorem Ends.ne_error {e : E} (hx : Ends Q R x) (he : ¬R e) : x ≠ .error e := by
  rintro rfl
  exact he hx

/-- **The invariant rule for runs that may fail:** every state of the run has the
invariant, and a step that fails does so with `R`. -/
theorem always_of_ends {S A : Type} {step : S → A → Except E S} {I : S → Prop}
    (hstep : ∀ s a, I s → Ends I R (step s a)) {s : S} (hs : I s) (l : List A) :
    Always step I s l ∧ Along step (fun s a => Ends I R (step s a)) s l := by
  have hkeep : ∀ s a s', I s → True → step s a = .ok s' → I s' :=
    fun s a s' hI _ h => (hstep s a hI).of_ok h
  have htrue : Along step (fun _ _ => True) s l := Along.of_forall fun _ _ => trivial
  exact ⟨htrue.always hkeep hs, htrue.along hkeep (fun s a hI _ => hstep s a hI) hs⟩

/-! ### Two computations -/

/-- The same error, or values with `R`. -/
def Agree (R : α → β → Prop) : Except E α → Except E β → Prop
  | .ok a, .ok b => R a b
  | .error e, .error e' => e = e'
  | _, _ => False

section Agree

variable {R : α → β → Prop} {x : Except E α} {y : Except E β}

theorem Agree.error_iff (h : Agree R x y) (e : E) : x = .error e ↔ y = .error e := by
  match x, y, h with
  | .ok a, .ok b, _ => exact iff_of_false (fun h => by cases h) (fun h => by cases h)
  | .error _, .error _, rfl => rw [Except.error.injEq, Except.error.injEq]

theorem Agree.of_ok (h : Agree R x y) {a : α} (hx : x = .ok a) : ∃ b, y = .ok b ∧ R a b := by
  subst hx
  match y, h with
  | .ok b, h => exact ⟨b, rfl, h⟩

/-- **Sequencing:** values with `R` are what the second computations start with. -/
theorem Agree.bind {α' β' : Type} {R' : α' → β' → Prop} {f : α → Except E α'}
    {g : β → Except E β'} (h : Agree R x y) (hfg : ∀ a b, R a b → Agree R' (f a) (g b)) :
    Agree R' (x >>= f) (y >>= g) := by
  match x, y, h with
  | .ok a, .ok b, h => exact hfg a b h
  | .error e, .error e', h => exact h

/-- **Simulation of runs that may fail:** steps that agree make runs that agree. -/
theorem Agree.run {S T A : Type} {step : S → A → Except E S} {step' : T → A → Except E T}
    {R : S → T → Prop} {P : S → A → Prop}
    (hstep : ∀ s t a, R s t → P s a → Agree R (step s a) (step' t a)) {s : S} {t : T}
    (h : R s t) {l : List A} (hP : Along step P s l) :
    Agree R (l.foldlM step s) (l.foldlM step' t) := by
  induction l generalizing s t with
  | nil => exact h
  | cons a l ih =>
      have hagree := hstep s t a h hP.1
      rw [List.foldlM_cons, List.foldlM_cons]
      match hs : step s a, ht : step' t a, hagree with
      | .error e, .error e', hagree => exact hagree
      | .ok s', .ok t', hagree => exact ih hagree (hP.2 s' hs)

end Agree

end Outcome
