/-
# Recording events, and merging what has been recorded

An accumulation is a state that takes in events one by one and that can take in
another state of its kind as well.  Two laws make it a summary of its events
(`Accumulation.Lawful`): merging a fresh state changes nothing, and merging a
state that has recorded one more event is merging it and then recording the
event.

`Recording` is the syntax of everything that can be built in this way, merges of
merges included.  By the laws a recording has a normal form: its state is that of
one fresh state recording all events in a row (`Recording.state_eq`), and where
the events commute their order does not matter either
(`Accumulation.recordAll_perm`).

An accumulation is lifted to tables in two steps.  A `Cell` is an entry that may
be missing and is made when it is first needed; `Cell.table` is the accumulation
of the finite maps whose entries are such cells.
-/

import Iotrace.Library.FiniteMap
import Mathlib.Logic.Function.Basic

/-- States that record events and take in each other. -/
structure Accumulation (S E : Type) where
  /-- The state before the first event. -/
  fresh : S
  /-- The state after one more event. -/
  record : S → E → S
  /-- The first state, after taking in the second. -/
  merge : S → S → S

/-- Everything that can be built from fresh states by recording and merging. -/
inductive Recording (E : Type) where
  | fresh
  | record (r : Recording E) (e : E)
  | merge (r₁ r₂ : Recording E)

namespace Accumulation

variable {S E : Type} (A : Accumulation S E)

/-- Record a list of events. -/
def recordAll (s : S) (es : List E) : S := es.foldl A.record s

/-- The laws of an accumulation, for the states with the property `Ok`. -/
structure Lawful (Ok : S → Prop) : Prop where
  fresh_ok : Ok A.fresh
  record_ok : ∀ s e, Ok s → Ok (A.record s e)
  merge_fresh : ∀ s, Ok s → A.merge s A.fresh = s
  merge_record : ∀ s s' e, Ok s → A.merge s (A.record s' e) = A.record (A.merge s s') e

/-- The order of two events does not matter. -/
def Commute (e e' : E) : Prop := ∀ s, A.record (A.record s e) e' = A.record (A.record s e') e

variable {A}

/-- A row of events can be recorded in two parts. -/
theorem recordAll_append (s : S) (es es' : List E) :
    A.recordAll s (es ++ es') = A.recordAll (A.recordAll s es) es' :=
  List.foldl_append

/-- Events that commute can be recorded in any order. -/
theorem recordAll_perm {es es' : List E} (h : es.Perm es')
    (hcomm : ∀ e ∈ es, ∀ e' ∈ es, A.Commute e e') (s : S) :
    A.recordAll s es = A.recordAll s es' :=
  h.foldl_eq' (fun e he e' he' s => hcomm e he e' he' s) s

variable {Ok : S → Prop}

/-- Recording keeps states good. -/
theorem Lawful.recordAll_ok (h : A.Lawful Ok) {s : S} (hs : Ok s) (es : List E) :
    Ok (A.recordAll s es) := by
  induction es generalizing s with
  | nil => exact hs
  | cons e es ih => exact ih (h.record_ok s e hs)

/-- **Merging a recorded state is recording its events.** -/
theorem Lawful.merge_recordAll (h : A.Lawful Ok) {s : S} (hs : Ok s) (es : List E) :
    A.merge s (A.recordAll A.fresh es) = A.recordAll s es := by
  induction es using List.reverseRecOn with
  | nil => exact h.merge_fresh s hs
  | append_singleton es e ih =>
      rw [recordAll_append, recordAll_append, ← ih]
      exact h.merge_record s _ e hs

/-- **Merging many recorded states** is recording all their events. -/
theorem Lawful.foldl_merge {ι : Type} (h : A.Lawful Ok) (order : List ι) (es : ι → List E) {s : S}
    (hs : Ok s) : order.foldl (fun s i => A.merge s (A.recordAll A.fresh (es i))) s =
      A.recordAll s (order.flatMap es) := by
  induction order generalizing s with
  | nil => rfl
  | cons i order ih =>
      rw [List.foldl_cons, h.merge_recordAll hs, ih (h.recordAll_ok hs _), List.flatMap_cons,
        recordAll_append]

/-- They can be merged in any order, if their events commute. -/
theorem Lawful.foldl_merge_perm {ι : Type} (h : A.Lawful Ok) {order order' : List ι}
    (hperm : order.Perm order') {es : ι → List E}
    (hcomm : ∀ i, ∀ e ∈ es i, ∀ j, ∀ e' ∈ es j, A.Commute e e') :
    order.foldl (fun s i => A.merge s (A.recordAll A.fresh (es i))) A.fresh =
      order'.foldl (fun s i => A.merge s (A.recordAll A.fresh (es i))) A.fresh := by
  rw [h.foldl_merge _ _ h.fresh_ok, h.foldl_merge _ _ h.fresh_ok]
  refine recordAll_perm (hperm.flatMap_right es) (fun e he e' he' => ?_) _
  obtain ⟨i, -, he⟩ := List.mem_flatMap.mp he
  obtain ⟨j, -, he'⟩ := List.mem_flatMap.mp he'
  exact hcomm i e he j e' he'

end Accumulation

/-! ### Recordings -/

namespace Recording

open Accumulation

variable {S E : Type}

/-- The events of a recording, those of merged recordings included. -/
def events : Recording E → List E
  | fresh => []
  | record r e => r.events ++ [e]
  | merge r₁ r₂ => r₁.events ++ r₂.events

/-- The state that a recording builds. -/
def state (A : Accumulation S E) : Recording E → S
  | fresh => A.fresh
  | record r e => A.record (r.state A) e
  | merge r₁ r₂ => A.merge (r₁.state A) (r₂.state A)

variable {A : Accumulation S E} {Ok : S → Prop}

/-- **The normal form of a recording:** all its events, recorded one after the
other in one fresh state. -/
theorem state_eq (h : A.Lawful Ok) (r : Recording E) :
    r.state A = A.recordAll A.fresh r.events := by
  induction r with
  | fresh => rfl
  | record r e ih =>
      rw [state, events, recordAll_append, ih]
      rfl
  | merge r₁ r₂ ih₁ ih₂ =>
      rw [state, events, recordAll_append, ih₁, ih₂]
      exact h.merge_recordAll (h.recordAll_ok h.fresh_ok _) _

/-- The recording without the events that fail a test. -/
def filter (p : E → Bool) : Recording E → Recording E
  | fresh => fresh
  | record r e => if p e then record (r.filter p) e else r.filter p
  | merge r₁ r₂ => merge (r₁.filter p) (r₂.filter p)

theorem filter_eq_self {p : E → Bool} {r : Recording E} (h : ∀ e ∈ r.events, p e = true) :
    r.filter p = r := by
  induction r with
  | fresh => rfl
  | record r e ih =>
      have hpast : ∀ e' ∈ r.events, p e' = true := fun e' he' => h e' (List.mem_append_left _ he')
      have he : p e = true := h e (List.mem_append_right _ List.mem_cons_self)
      rw [filter, if_pos he, ih hpast]
  | merge r₁ r₂ ih₁ ih₂ =>
      rw [filter, ih₁ fun e he => h e (List.mem_append_left _ he),
        ih₂ fun e he => h e (List.mem_append_right _ he)]

/-- `P` holds of every recording that this one is built from, itself included. -/
def Throughout (P : Recording E → Prop) : Recording E → Prop
  | fresh => P fresh
  | record r e => r.Throughout P ∧ P (record r e)
  | merge r₁ r₂ => r₁.Throughout P ∧ r₂.Throughout P ∧ P (merge r₁ r₂)

/-- **The exact rule for a property of recordings:** where it holds as long as all
events meet `q`, and the first event that does not meet `q` breaks it, it holds
throughout a recording if and only if all events meet `q`. -/
theorem throughout_iff {q : E → Prop} {P : Recording E → Prop}
    (hkeep : ∀ r, (∀ e ∈ r.events, q e) → P r)
    (hbreak : ∀ r e, (∀ e' ∈ r.events, q e') → P (record r e) → q e) (r : Recording E) :
    r.Throughout P ↔ ∀ e ∈ r.events, q e := by
  induction r with
  | fresh => exact ⟨fun _ e he => absurd he List.not_mem_nil, fun h => hkeep fresh h⟩
  | record r e ih =>
      constructor
      · rintro ⟨hthrough, hP⟩ e' he'
        have hpast := ih.mp hthrough
        rcases List.mem_append.mp he' with he' | he'
        · exact hpast e' he'
        · rw [List.mem_singleton.mp he']
          exact hbreak r e hpast hP
      · intro h
        exact ⟨ih.mpr fun e' he' => h e' (List.mem_append_left _ he'), hkeep _ h⟩
  | merge r₁ r₂ ih₁ ih₂ =>
      constructor
      · rintro ⟨h₁, h₂, -⟩ e he
        rcases List.mem_append.mp he with he | he
        · exact ih₁.mp h₁ e he
        · exact ih₂.mp h₂ e he
      · intro h
        exact ⟨ih₁.mpr fun e he => h e (List.mem_append_left _ he),
          ih₂.mpr fun e he => h e (List.mem_append_right _ he), hkeep _ h⟩

end Recording

/-! ### A pool of states that are merged into one -/

/-- A step of the pool: state `i` records an event, or is merged into the main state. -/
inductive PoolStep (ι E : Type) where
  | record (i : ι) (e : E)
  | merge (i : ι)

namespace PoolStep

variable {ι S E : Type}

/-- The state whose step it is. -/
def owner : PoolStep ι E → ι
  | record i _ | merge i => i

variable [DecidableEq ι] (A : Accumulation S E)

/-- The step on the pool; `none` is the main state. -/
def run (s : Option ι → S) : PoolStep ι E → Option ι → S
  | record i e => Function.update s (some i) (A.record (s (some i)) e)
  | merge i => Function.update s none (A.merge (s none) (s (some i)))

/-- The steps are those of the owners in `owners`, in any interleaving: each of them
records its events, and is then merged. -/
structure Interleaves (owners : List ι) (events : ι → List E) (steps : List (PoolStep ι E)) :
    Prop where
  nodup : owners.Nodup
  own : ∀ i ∈ owners,
    steps.filter (fun a => a.owner = i) = (events i).map (record i) ++ [merge i]
  only : ∀ a ∈ steps, a.owner ∈ owners

/-- The events that reach the main state in a run, `past i` being those that state
`i` has recorded before. -/
def merged (past : ι → List E) : List (PoolStep ι E) → List E
  | [] => []
  | record i e :: steps => merged (Function.update past i (past i ++ [e])) steps
  | merge i :: steps => past i ++ merged past steps

theorem filter_owner_self {a : PoolStep ι E} {i : ι} (h : a.owner = i)
    (steps : List (PoolStep ι E)) :
    (a :: steps).filter (fun a => a.owner = i) = a :: steps.filter fun a => a.owner = i := by
  rw [List.filter_cons, if_pos (decide_eq_true h)]

theorem filter_owner_ne {a : PoolStep ι E} {i : ι} (h : a.owner ≠ i)
    (steps : List (PoolStep ι E)) :
    (a :: steps).filter (fun a => a.owner = i) = steps.filter fun a => a.owner = i := by
  rw [List.filter_cons, if_neg fun hi => h (of_decide_eq_true hi)]

theorem Interleaves.tail_of_record {owners : List ι} {events : ι → List E} {i : ι} {e : E}
    {steps : List (PoolStep ι E)} (h : Interleaves owners events (record i e :: steps)) :
    ∃ rest, events i = e :: rest ∧ Interleaves owners (Function.update events i rest) steps := by
  have hi : i ∈ owners := h.only _ List.mem_cons_self
  have hown := h.own i hi
  have hself : (record i e : PoolStep ι E).owner = i := rfl
  rw [filter_owner_self hself] at hown
  cases hevents : events i with
  | nil =>
      rw [hevents] at hown
      cases hown
  | cons e' rest =>
      rw [hevents, List.map_cons, List.cons_append] at hown
      obtain ⟨he, hrest⟩ := List.cons.inj hown
      obtain rfl : e = e' := (record.inj he).2
      refine ⟨rest, rfl, h.nodup, fun j hj => ?_, fun a ha => h.only a (List.mem_cons_of_mem _ ha)⟩
      by_cases hji : j = i
      · rw [hji, Function.update_self, hrest]
      · have hne : (record i e : PoolStep ι E).owner ≠ j := Ne.symm hji
        rw [Function.update_of_ne hji, ← h.own j hj, filter_owner_ne hne]

theorem Interleaves.tail_of_merge {owners : List ι} {events : ι → List E} {i : ι}
    {steps : List (PoolStep ι E)} (h : Interleaves owners events (merge i :: steps)) :
    events i = [] ∧ Interleaves (owners.erase i) events steps := by
  have hi : i ∈ owners := h.only _ List.mem_cons_self
  have hown := h.own i hi
  have hself : (merge i : PoolStep ι E).owner = i := rfl
  rw [filter_owner_self hself] at hown
  cases hevents : events i with
  | cons e rest =>
      rw [hevents] at hown
      cases hown
  | nil =>
      rw [hevents, List.map_nil, List.nil_append] at hown
      have hdone : steps.filter (fun a => a.owner = i) = [] := (List.cons.inj hown).2
      refine ⟨rfl, h.nodup.erase i, fun j hj => ?_, fun a ha => ?_⟩
      · obtain ⟨hji, hj⟩ := h.nodup.mem_erase_iff.mp hj
        have hne : (merge i : PoolStep ι E).owner ≠ j := Ne.symm hji
        rw [← h.own j hj, filter_owner_ne hne]
      · have hai : a.owner ≠ i := fun hai =>
          (List.filter_eq_nil_iff.mp hdone a ha) (decide_eq_true hai)
        exact h.nodup.mem_erase_iff.mpr ⟨hai, h.only a (List.mem_cons_of_mem _ ha)⟩

/-- **Every event reaches the main state once.** -/
theorem Interleaves.merged_perm {owners : List ι} {events : ι → List E}
    {steps : List (PoolStep ι E)} (h : Interleaves owners events steps) (past : ι → List E) :
    (merged past steps).Perm (owners.map fun i => past i ++ events i).flatten := by
  induction steps generalizing owners events past with
  | nil =>
      cases howners : owners with
      | nil => exact List.Perm.refl _
      | cons i rest =>
          have hown := h.own i (by rw [howners]; exact List.mem_cons_self)
          rw [List.filter_nil] at hown
          exact absurd hown.symm (by simp)
  | cons a steps ih =>
      cases a with
      | record i e =>
          obtain ⟨rest, hevents, htail⟩ := h.tail_of_record
          have hsame : (fun j => Function.update past i (past i ++ [e]) j ++
              Function.update events i rest j) = fun j => past j ++ events j := by
            funext j
            by_cases hji : j = i
            · rw [hji, Function.update_self, Function.update_self, hevents, List.append_assoc]
              rfl
            · rw [Function.update_of_ne hji, Function.update_of_ne hji]
          rw [merged, ← hsame]
          exact ih htail _
      | merge i =>
          obtain ⟨hevents, htail⟩ := h.tail_of_merge
          have hi : i ∈ owners := h.only _ List.mem_cons_self
          have hperm := ((List.perm_cons_erase hi).map fun j => past j ++ events j).flatten
          refine List.Perm.trans ?_ hperm.symm
          rw [merged, List.map_cons, List.flatten_cons, hevents, List.append_nil]
          exact (ih htail past).append_left (past i)

/-- What a run makes of the pool, read from what the states have recorded before. -/
theorem run_states {A : Accumulation S E} {Ok : S → Prop} (hA : A.Lawful Ok)
    {s : Option ι → S} (past : ι → List E) (main : List E)
    (hs : ∀ i, s (some i) = A.recordAll A.fresh (past i))
    (hmain : s none = A.recordAll A.fresh main) (steps : List (PoolStep ι E)) :
    steps.foldl (run A) s none = A.recordAll A.fresh (main ++ merged past steps) := by
  induction steps generalizing s past main with
  | nil => rw [merged, List.append_nil, List.foldl_nil, hmain]
  | cons a steps ih =>
      rw [List.foldl_cons]
      cases a with
      | record i e =>
          rw [merged]
          refine ih _ _ (fun j => ?_) ?_
          · by_cases hji : j = i
            · rw [hji, Function.update_self, Accumulation.recordAll_append, ← hs]
              exact Function.update_self _ _ _
            · rw [Function.update_of_ne hji, ← hs]
              exact Function.update_of_ne (fun h => hji (Option.some.inj h)) _ _
          · rw [← hmain]
            exact Function.update_of_ne (Option.some_ne_none i).symm _ _
      | merge i =>
          rw [merged, ← List.append_assoc]
          refine ih _ _ (fun j => ?_) ?_
          · rw [← hs]
            exact Function.update_of_ne (Option.some_ne_none j) _ _
          · have hok : Ok (s none) := by
              rw [hmain]
              exact hA.recordAll_ok hA.fresh_ok main
            rw [Accumulation.recordAll_append, ← hmain, ← hA.merge_recordAll hok, ← hs, run,
              Function.update_self]

/-- **A pool merges to what one state records:** whatever the interleaving, the main
state is that of one fresh state that recorded all events, in whatever order. -/
theorem Interleaves.main_eq {A : Accumulation S E} {Ok : S → Prop} (hA : A.Lawful Ok)
    {owners : List ι} {events : ι → List E} {steps : List (PoolStep ι E)}
    (h : Interleaves owners events steps) {all : List E}
    (hall : all.Perm (owners.map events).flatten)
    (hcomm : ∀ e ∈ all, ∀ e' ∈ all, A.Commute e e') :
    steps.foldl (run A) (fun _ => A.fresh) none = A.recordAll A.fresh all := by
  have hrun := run_states hA (s := fun _ => A.fresh) (fun _ : ι => []) [] (fun _ => rfl) rfl steps
  rw [hrun, List.nil_append]
  refine (Accumulation.recordAll_perm (hall.trans ?_) hcomm _).symm
  exact (h.merged_perm fun _ => []).symm

/-- The events that state `i` records in a run. -/
def recordedBy (i : ι) : List (PoolStep ι E) → List E
  | [] => []
  | record j e :: steps => if j = i then e :: recordedBy i steps else recordedBy i steps
  | merge _ :: steps => recordedBy i steps

/-- **A state is what it has recorded**, whether or not it has been merged. -/
theorem foldl_run_some {A : Accumulation S E} (s : Option ι → S) (steps : List (PoolStep ι E))
    (i : ι) : steps.foldl (run A) s (some i) = A.recordAll (s (some i)) (recordedBy i steps) := by
  induction steps generalizing s with
  | nil => rfl
  | cons a steps ih =>
      rw [List.foldl_cons, ih]
      cases a with
      | record j e =>
          by_cases hji : j = i
          · rw [hji, run, Function.update_self, recordedBy, if_pos rfl]
            rfl
          · have hne : some i ≠ some j := fun h => hji (Option.some.inj h).symm
            rw [run, Function.update_of_ne hne, recordedBy, if_neg hji]
      | merge j => rw [run, Function.update_of_ne (Option.some_ne_none i), recordedBy]

/-- What the steps of an interleaving record in a state are its events. -/
theorem Interleaves.recordedBy_eq {owners : List ι} {events : ι → List E}
    {steps : List (PoolStep ι E)} (h : Interleaves owners events steps) {i : ι} (hi : i ∈ owners) :
    recordedBy i steps = events i := by
  have hfilter : ∀ l : List (PoolStep ι E),
      recordedBy i (l.filter fun a => a.owner = i) = recordedBy i l := by
    intro l
    induction l with
    | nil => rfl
    | cons a l ih =>
        by_cases hai : a.owner = i
        · rw [filter_owner_self hai]
          cases a with
          | record j e => rw [recordedBy, recordedBy, ih]
          | merge j => rw [recordedBy, recordedBy, ih]
        · rw [filter_owner_ne hai, ih]
          cases a with
          | record j e =>
              have hji : j ≠ i := hai
              rw [recordedBy, if_neg hji]
          | merge j => rw [recordedBy]
  have hmap : ∀ es : List E, recordedBy i (es.map (record i) ++ [merge i]) = es := by
    intro es
    induction es with
    | nil => rfl
    | cons e es ih => rw [List.map_cons, List.cons_append, recordedBy, if_pos rfl, ih]
  rw [← hfilter, h.own i hi, hmap]

/-- **Merging leaves the merged states unchanged.** -/
theorem Interleaves.state_eq {A : Accumulation S E} {owners : List ι} {events : ι → List E}
    {steps : List (PoolStep ι E)} (h : Interleaves owners events steps) {i : ι} (hi : i ∈ owners) :
    steps.foldl (run A) (fun _ => A.fresh) (some i) = A.recordAll A.fresh (events i) := by
  rw [foldl_run_some, h.recordedBy_eq hi]

/-- What an owner records in a longer run. -/
theorem recordedBy_append (i : ι) (steps steps' : List (PoolStep ι E)) :
    recordedBy i (steps ++ steps') = recordedBy i steps ++ recordedBy i steps' := by
  induction steps with
  | nil => rfl
  | cons a steps ih =>
      cases a with
      | record j e =>
          simp only [List.cons_append, recordedBy, ih]
          split_ifs
          · rfl
          · rfl
      | merge j => exact ih

/-- An interleaving on its way: every owner has recorded, and has then been merged if
`done` says so. -/
structure SoFar (owners : List ι) (done : ι → Bool) (steps : List (PoolStep ι E)) : Prop where
  own : ∀ i, steps.filter (fun a => a.owner = i) =
    (recordedBy i steps).map (record i) ++ if done i then [merge i] else []
  only : ∀ a ∈ steps, a.owner ∈ owners

namespace SoFar

variable {owners : List ι} {done : ι → Bool} {steps : List (PoolStep ι E)}

theorem nil (owners : List ι) (hdone : ∀ i, done i = false) :
    SoFar owners done ([] : List (PoolStep ι E)) where
  own i := by rw [hdone]; rfl
  only _ ha := absurd ha List.not_mem_nil

/-- More owners, who have not been merged, and the same for those that are there. -/
theorem mono (h : SoFar owners done steps) {owners' : List ι} {done' : ι → Bool}
    (howners : owners ⊆ owners') (hdone : ∀ i, done' i = done i) : SoFar owners' done' steps where
  own i := by rw [hdone]; exact h.own i
  only a ha := howners (h.only a ha)

/-- The next step is that of an owner, too. -/
theorem only_append (h : SoFar owners done steps) {a : PoolStep ι E} (ha : a.owner ∈ owners) :
    ∀ b ∈ steps ++ [a], b.owner ∈ owners := by
  intro b hb
  rcases List.mem_append.mp hb with hb | hb
  · exact h.only b hb
  · obtain rfl := List.mem_singleton.mp hb
    exact ha

/-- An owner that has not been merged records another event. -/
theorem record (h : SoFar owners done steps) {i : ι} (hi : i ∈ owners) (hdone : done i = false)
    (e : E) : SoFar owners done (steps ++ [.record i e]) where
  own j := by
    rw [List.filter_append, h.own j, recordedBy_append, List.map_append]
    by_cases hij : i = j
    · subst hij
      have hself : (PoolStep.record i e : PoolStep ι E).owner = i := rfl
      rw [hdone, recordedBy, if_pos rfl, filter_owner_self hself]
      simp [recordedBy]
    · have hne : (PoolStep.record i e : PoolStep ι E).owner ≠ j := hij
      rw [filter_owner_ne hne, recordedBy, if_neg hij]
      simp [recordedBy]
  only := h.only_append hi

/-- An owner that has not been merged is merged. -/
theorem merge (h : SoFar owners done steps) {i : ι} (hi : i ∈ owners) (hdone : done i = false) :
    SoFar owners (Function.update done i true) (steps ++ [.merge i]) where
  own j := by
    rw [List.filter_append, h.own j, recordedBy_append]
    by_cases hij : i = j
    · subst hij
      have hself : (PoolStep.merge i : PoolStep ι E).owner = i := rfl
      rw [hdone, Function.update_self, filter_owner_self hself]
      simp [recordedBy]
    · have hne : (PoolStep.merge i : PoolStep ι E).owner ≠ j := hij
      rw [filter_owner_ne hne, Function.update_of_ne (Ne.symm hij)]
      simp [recordedBy]
  only := h.only_append hi

/-- **Where all have been merged, the interleaving is complete.** -/
theorem interleaves (h : SoFar owners done steps) (hnodup : owners.Nodup)
    (hall : ∀ i ∈ owners, done i = true) :
    Interleaves owners (fun i => recordedBy i steps) steps where
  nodup := hnodup
  own i hi := by rw [h.own i, hall i hi, if_pos rfl]
  only := h.only

end SoFar

/-- **The main state after a complete interleaving** has recorded every event once. -/
theorem Interleaves.exists_main_eq {A : Accumulation S E} {Ok : S → Prop} (hA : A.Lawful Ok)
    {owners : List ι} {events : ι → List E} {steps : List (PoolStep ι E)}
    (h : Interleaves owners events steps) :
    ∃ all : List E, all.Perm (owners.map events).flatten ∧
      steps.foldl (run A) (fun _ => A.fresh) none = A.recordAll A.fresh all :=
  ⟨_, h.merged_perm fun _ => [], run_states hA (s := fun _ => A.fresh) (fun _ : ι => []) []
    (fun _ => rfl) rfl steps⟩

end PoolStep

/-! ### Entries made on demand, and tables of them -/

/-- An entry that records events and takes in other entries; `none` stands for
the entry that is not there yet. -/
structure Cell (β E : Type) where
  record : Option β → E → β
  merge : Option β → β → β

namespace Cell

variable {α β E : Type}

/-- The cell whose missing entry is made as a fresh state. -/
def ofAccumulation (A : Accumulation β E) : Cell β E where
  record o e := A.record (o.getD A.fresh) e
  merge o v := A.merge (o.getD A.fresh) v

variable (C : Cell β E)

/-- Record a list of events. -/
def recordAll (o : Option β) (es : List E) : Option β :=
  es.foldl (fun o e => some (C.record o e)) o

/-- The laws of a cell, for the entries with the property `Ok`. -/
structure Lawful (Ok : β → Prop) : Prop where
  record_ok : ∀ o e, (∀ v ∈ o, Ok v) → Ok (C.record o e)
  merge_record : ∀ o v e, (∀ v ∈ o, Ok v) →
    C.merge o (C.record (some v) e) = C.record (some (C.merge o v)) e
  merge_record_none : ∀ o e, (∀ v ∈ o, Ok v) → C.merge o (C.record none e) = C.record o e

/-- The order of two events does not matter. -/
def Commute (e e' : E) : Prop :=
  ∀ o, C.record (some (C.record o e)) e' = C.record (some (C.record o e')) e

variable {C}

section OfAccumulation

variable {A : Accumulation β E} {Ok : β → Prop}

/-- Making entries on demand keeps the laws. -/
theorem ofAccumulation_lawful (h : A.Lawful Ok) : (ofAccumulation A).Lawful Ok := by
  have hget : ∀ o : Option β, (∀ v ∈ o, Ok v) → Ok (o.getD A.fresh) := by
    intro o ho
    cases o with
    | none => exact h.fresh_ok
    | some v => exact ho v rfl
  refine ⟨fun o e ho => h.record_ok _ e (hget o ho),
    fun o v e ho => h.merge_record _ v e (hget o ho), fun o e ho => ?_⟩
  have hmerge := h.merge_record _ A.fresh e (hget o ho)
  rw [h.merge_fresh _ (hget o ho)] at hmerge
  exact hmerge

theorem ofAccumulation_commute {e e' : E} (h : A.Commute e e') :
    (ofAccumulation A).Commute e e' :=
  fun o => h (o.getD A.fresh)

end OfAccumulation

variable [DecidableEq α] (C)

/-- **Tables of cells.**  The event `e` goes to the entry of `key e`, and a merge
takes in the entries of the other table one by one. -/
def table (key : E → α) (t₀ : Finmap fun _ : α => β) :
    Accumulation (Finmap fun _ : α => β) E where
  fresh := t₀
  record t e := FiniteMap.modify t (key e) fun o => C.record o e
  merge t t' := FiniteMap.walk (fun t k v => FiniteMap.modify t k fun o => C.merge o v)
    (FiniteMap.exchangeable_modify _) t' t

variable {C} {key : E → α} {t₀ : Finmap fun _ : α => β}

theorem lookup_table_record (t : Finmap fun _ : α => β) (e : E) (k : α) :
    ((C.table key t₀).record t e).lookup k =
      if k = key e then some (C.record (t.lookup k) e) else t.lookup k := by
  rw [table, FiniteMap.lookup_modify]
  split_ifs with hk
  · rw [hk]
  · rfl

/-- Tables are merged cell by cell. -/
theorem lookup_table_merge (t t' : Finmap fun _ : α => β) (k : α) :
    ((C.table key t₀).merge t t').lookup k =
      match t'.lookup k with
      | some v => some (C.merge (t.lookup k) v)
      | none => t.lookup k :=
  FiniteMap.lookup_walk_modify _ _ t' t k

/-- **An entry records the events of its key.** -/
theorem lookup_table_recordAll (t : Finmap fun _ : α => β) (es : List E) (k : α) :
    ((C.table key t₀).recordAll t es).lookup k =
      C.recordAll (t.lookup k) (es.filter fun e => key e = k) := by
  induction es generalizing t with
  | nil => rfl
  | cons e es ih =>
      have hcons : (C.table key t₀).recordAll t (e :: es) =
          (C.table key t₀).recordAll ((C.table key t₀).record t e) es := rfl
      rw [hcons, ih, lookup_table_record, List.filter_cons]
      by_cases hk : k = key e
      · rw [if_pos hk, if_pos (decide_eq_true hk.symm)]
        rfl
      · rw [if_neg hk, if_neg (fun h => hk (of_decide_eq_true h).symm)]

/-- **The keys of a table** are those of the events. -/
theorem mem_table_recordAll {t : Finmap fun _ : α => β} {es : List E} {k : α} :
    k ∈ (C.table key t₀).recordAll t es ↔ k ∈ t ∨ ∃ e ∈ es, key e = k := by
  induction es generalizing t with
  | nil => exact ⟨Or.inl, fun h => h.resolve_right fun ⟨_, he, _⟩ => List.not_mem_nil he⟩
  | cons e es ih =>
      have hcons : (C.table key t₀).recordAll t (e :: es) =
          (C.table key t₀).recordAll ((C.table key t₀).record t e) es := rfl
      have hone : k ∈ (C.table key t₀).record t e ↔ k = key e ∨ k ∈ t := Finmap.mem_insert
      rw [hcons, ih, hone, List.exists_mem_cons_iff, @eq_comm _ k, or_comm (a := key e = k),
        or_assoc]

/-- The keys after a merge are those of both tables. -/
theorem mem_table_merge {t t' : Finmap fun _ : α => β} {k : α} :
    k ∈ (C.table key t₀).merge t t' ↔ k ∈ t ∨ k ∈ t' := by
  rw [← Finmap.lookup_isSome, ← Finmap.lookup_isSome, ← Finmap.lookup_isSome, lookup_table_merge]
  cases t'.lookup k with
  | none => simp
  | some v => simp

/-- All entries of the table have the property, and no entry that the table
started with is missing. -/
structure TableOk (Ok : β → Prop) (t₀ t : Finmap fun _ : α => β) : Prop where
  entries : ∀ k v, t.lookup k = some v → Ok v
  started : ∀ k, (t₀.lookup k).isSome → (t.lookup k).isSome

/-- **Tables of lawful cells are lawful**, if the entries that they start with
add nothing to any other entry. -/
theorem table_lawful {Ok : β → Prop} (h : C.Lawful Ok)
    (ht₀ : ∀ k v₀, t₀.lookup k = some v₀ → Ok v₀ ∧ ∀ v, Ok v → C.merge (some v) v₀ = v) :
    (C.table key t₀).Lawful (TableOk Ok t₀) where
  fresh_ok := ⟨fun k v hv => (ht₀ k v hv).1, fun _ hk => hk⟩
  record_ok t e ht := by
    refine ⟨fun k v hv => ?_, fun k hk => ?_⟩
    · rw [lookup_table_record] at hv
      split_ifs at hv with hkey
      · obtain rfl := Option.some.inj hv
        exact h.record_ok _ e fun v hv => ht.entries k v hv
      · exact ht.entries k v hv
    · rw [lookup_table_record]
      split_ifs
      · rfl
      · exact ht.started k hk
  merge_fresh t ht := by
    refine Finmap.ext_lookup fun k => ?_
    have hfresh : (C.table key t₀).fresh = t₀ := rfl
    rw [lookup_table_merge, hfresh]
    cases hk : t₀.lookup k with
    | none => rfl
    | some v₀ =>
        obtain ⟨v, hv⟩ := Option.isSome_iff_exists.mp (ht.started k (by rw [hk]; rfl))
        rw [hv]
        exact congrArg some ((ht₀ k v₀ hk).2 v (ht.entries k v hv))
  merge_record t t' e ht := by
    refine Finmap.ext_lookup fun k => ?_
    have hentry : ∀ v ∈ t.lookup k, Ok v := fun v hv => ht.entries k v hv
    rw [lookup_table_merge, lookup_table_record, lookup_table_record, lookup_table_merge]
    by_cases hk : k = key e
    · rw [if_pos hk, if_pos hk]
      cases t'.lookup k with
      | none => exact congrArg some (h.merge_record_none _ e hentry)
      | some v => exact congrArg some (h.merge_record _ v e hentry)
    · rw [if_neg hk, if_neg hk]

/-- Events commute in a table if they do in a cell or have different keys. -/
theorem table_commute {e e' : E} (h : key e = key e' → C.Commute e e') :
    (C.table key t₀).Commute e e' := by
  intro t
  by_cases hk : key e = key e'
  · refine Finmap.ext_lookup fun k => ?_
    rw [lookup_table_record, lookup_table_record, lookup_table_record, lookup_table_record, hk]
    split_ifs
    · exact congrArg some (h hk _)
    · rfl
  · exact FiniteMap.modify_comm hk t (C.record · e) (C.record · e')

/-- **The total of a table:** where every event adds its weight to the measure of
its entry, the sum over all entries grows by the weights of the events. -/
theorem sum_table_recordAll {M : Type} [AddCommMonoid M] {f : β → M} {g : E → M}
    (hnone : ∀ e, f (C.record none e) = g e)
    (hsome : ∀ v e, f (C.record (some v) e) = f v + g e)
    (t : Finmap fun _ : α => β) (es : List E) :
    FiniteMap.sum (fun _ => f) ((C.table key t₀).recordAll t es) =
      FiniteMap.sum (fun _ => f) t + (es.map g).sum := by
  induction es generalizing t with
  | nil => exact (add_zero _).symm
  | cons e es ih =>
      have hcons : (C.table key t₀).recordAll t (e :: es) =
          (C.table key t₀).recordAll ((C.table key t₀).record t e) es := rfl
      have hone : FiniteMap.sum (fun _ => f) ((C.table key t₀).record t e) =
          FiniteMap.sum (fun _ => f) t + g e := by
        change FiniteMap.sum (fun _ => f) (FiniteMap.modify t (key e) (C.record · e)) = _
        exact FiniteMap.sum_modify (fun _ => hnone e) fun v _ => hsome v e
      rw [hcons, ih, hone, List.map_cons, List.sum_cons, add_assoc]

end Cell
