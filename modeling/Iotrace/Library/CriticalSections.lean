/-
# Critical sections

Threads that change values which they share.  Each value has a mutex, and each thread
has a row of critical sections to go through: it locks the mutex, acts on the value
several times and unlocks the mutex.  The steps of the threads are interleaved in any
way; a thread that needs a locked mutex waits.

`Serial` is the invariant: the values are as if the sections that have been left had
been gone through as a whole, one after the other.  What follows is that no two threads
are in a section of one mutex (`Serial.alone`), that some thread can go on until all have
gone through their sections (`Serial.progress`), in as many steps as there are
(`run_remaining`), and that in the end the values are those of all sections in some order,
which for each thread is its own (`Serial.ended`).
-/

import Iotrace.Library.Runs
import Iotrace.Library.Weights
import Mathlib.Algebra.BigOperators.Group.Finset.Basic
import Mathlib.Data.Fintype.BigOperators
import Mathlib.Data.List.Nodup
import Mathlib.Logic.Function.Basic

namespace Mutex

open Runs Weights

/-- A critical section: what is done to the value of a mutex while it is locked. -/
structure Critical {M : Type} (A : M → Type) where
  mutex : M
  actions : List (A mutex)

/-- Where a thread stands, and what it has left to do. -/
inductive Thread {M : Type} (A : M → Type) where
  | outside (todo : List (Critical A))
  | inside (mutex : M) (rest : List (A mutex)) (todo : List (Critical A))

/-- The values, which mutexes are locked, and the threads. -/
structure System (ι : Type) {M : Type} (S A : M → Type) where
  value : (m : M) → S m
  locked : M → Bool
  threads : ι → Thread A

/-- Why a thread does not go on. -/
inductive Stuck where
  /-- It waits for a mutex. -/
  | waiting
  /-- It has nothing left to do. -/
  | finished

variable {ι M : Type} [DecidableEq ι] [DecidableEq M] {S A : M → Type}
  {act : (m : M) → S m → A m → S m}

namespace System

/-- A thread has its section and the rest of its program before it. -/
def enter (s : System ι S A) (i : ι) (c : Critical A) (todo : List (Critical A)) :
    System ι S A where
  value := s.value
  locked := Function.update s.locked c.mutex true
  threads := Function.update s.threads i (.inside c.mutex c.actions todo)

/-- A thread does an action of its section. -/
def perform (act : (m : M) → S m → A m → S m) (s : System ι S A) (i : ι) (m : M) (a : A m)
    (rest : List (A m)) (todo : List (Critical A)) : System ι S A where
  value := Function.update s.value m (act m (s.value m) a)
  locked := s.locked
  threads := Function.update s.threads i (.inside m rest todo)

/-- A thread has its section behind it. -/
def leave (s : System ι S A) (i : ι) (m : M) (todo : List (Critical A)) : System ι S A where
  value := s.value
  locked := Function.update s.locked m false
  threads := Function.update s.threads i (.outside todo)

variable (s : System ι S A) (i j : ι) (c : Critical A) (m m' : M) (todo : List (Critical A))

theorem enter_threads : (s.enter i c todo).threads j =
    if j = i then .inside c.mutex c.actions todo else s.threads j :=
  Function.update_apply _ _ _ _

theorem enter_locked : (s.enter i c todo).locked m =
    if m = c.mutex then true else s.locked m :=
  Function.update_apply _ _ _ _

theorem perform_threads (act : (m : M) → S m → A m → S m) (a : A m) (rest : List (A m)) :
    (s.perform act i m a rest todo).threads j =
      if j = i then .inside m rest todo else s.threads j :=
  Function.update_apply _ _ _ _

theorem leave_threads : (s.leave i m todo).threads j =
    if j = i then .outside todo else s.threads j :=
  Function.update_apply _ _ _ _

theorem leave_locked : (s.leave i m todo).locked m' = if m' = m then false else s.locked m' :=
  Function.update_apply _ _ _ _

end System

/-- The next step of a thread. -/
def step (act : (m : M) → S m → A m → S m) (s : System ι S A) (i : ι) :
    Except Stuck (System ι S A) :=
  match s.threads i with
  | .outside [] => .error .finished
  | .outside (c :: todo) =>
    if s.locked c.mutex then .error .waiting else .ok (s.enter i c todo)
  | .inside m [] todo => .ok (s.leave i m todo)
  | .inside m (a :: rest) todo => .ok (s.perform act i m a rest todo)

/-- Nothing is locked, and the threads are at the start of their programs. -/
def start (value : (m : M) → S m) (program : ι → List (Critical A)) : System ι S A :=
  ⟨value, fun _ => false, fun i => .outside (program i)⟩

/-! ### Sections that have been left -/

/-- What a section does to the value of a mutex. -/
def Critical.on (c : Critical A) (m : M) : List (A m) :=
  if h : c.mutex = m then h ▸ c.actions else []

@[simp] theorem Critical.on_self (m : M) (actions : List (A m)) :
    Critical.on ⟨m, actions⟩ m = actions :=
  dif_pos rfl

theorem Critical.on_of_ne {c : Critical A} {m : M} (h : c.mutex ≠ m) : c.on m = [] := dif_neg h

/-- What a row of sections does to the value of a mutex. -/
def actionsOn (past : List (ι × Critical A)) (m : M) : List (A m) := past.flatMap fun c => c.2.on m

/-- The sections of a thread. -/
def sectionsOf (past : List (ι × Critical A)) (i : ι) : List (Critical A) :=
  (past.filter fun c => c.1 = i).map Prod.snd

omit [DecidableEq ι] in
theorem actionsOn_concat (past : List (ι × Critical A)) (i : ι) (c : Critical A) (m : M) :
    actionsOn (past ++ [(i, c)]) m = actionsOn past m ++ c.on m := by
  rw [actionsOn, List.flatMap_append, List.flatMap_singleton]
  rfl

omit [DecidableEq M] in
theorem sectionsOf_concat_self (past : List (ι × Critical A)) (i : ι) (c : Critical A) :
    sectionsOf (past ++ [(i, c)]) i = sectionsOf past i ++ [c] := by
  simp [sectionsOf, List.filter_append]

omit [DecidableEq M] in
theorem sectionsOf_concat_of_ne (past : List (ι × Critical A)) {i j : ι} (h : i ≠ j)
    (c : Critical A) : sectionsOf (past ++ [(i, c)]) j = sectionsOf past j := by
  simp [sectionsOf, List.filter_append, h]

/-! ### The invariant -/

/-- The sections in `past` have been left, in this order, and `part` has been done in those
that threads are in. -/
structure Serial (act : (m : M) → S m → A m → S m) (value : (m : M) → S m)
    (program : ι → List (Critical A)) (s : System ι S A) (past : List (ι × Critical A))
    (part : (m : M) → List (A m)) : Prop where
  value : ∀ m, s.value m = (actionsOn past m ++ part m).foldl (act m) (value m)
  free : ∀ m, s.locked m = false → part m = []
  outside : ∀ i todo, s.threads i = .outside todo → program i = sectionsOf past i ++ todo
  inside : ∀ i m rest todo, s.threads i = .inside m rest todo →
    s.locked m = true ∧ program i = sectionsOf past i ++ ⟨m, part m ++ rest⟩ :: todo
  holder : ∀ m, s.locked m = true → ∃ i rest todo, s.threads i = .inside m rest todo
  alone : ∀ i j m rest todo rest' todo', s.threads i = .inside m rest todo →
    s.threads j = .inside m rest' todo' → i = j

variable {value : (m : M) → S m} {program : ι → List (Critical A)} {s s' : System ι S A}
  {past : List (ι × Critical A)} {part : (m : M) → List (A m)} {i : ι}

theorem start_serial (value : (m : M) → S m) (program : ι → List (Critical A)) :
    Serial act value program (start value program) [] fun _ => [] where
  value _ := rfl
  free _ _ := rfl
  outside _ _ h := Thread.outside.inj h
  inside _ _ _ _ h := nomatch h
  holder _ h := nomatch h
  alone _ _ _ _ _ _ _ h := nomatch h

/-- **A thread enters a section.** -/
theorem Serial.enter (h : Serial act value program s past part) {c : Critical A}
    {todo : List (Critical A)} (hi : s.threads i = .outside (c :: todo))
    (hfree : s.locked c.mutex = false) :
    Serial act value program (s.enter i c todo) past part := by
  have hthreads := fun j => s.enter_threads i j c todo
  have hlocked := fun m => s.enter_locked i c m todo
  have hnone : ∀ j rest todo', s.threads j ≠ .inside c.mutex rest todo' := fun j rest todo' hj =>
    nomatch (h.inside j _ rest todo' hj).1.symm.trans hfree
  refine ⟨h.value, fun m hm => ?_, fun j todo' hj => ?_, fun j m rest todo' hj => ?_,
    fun m hm => ?_, fun j k m rest todo' rest' todo'' hj hk => ?_⟩
  · rw [hlocked] at hm
    split_ifs at hm
    exact h.free m hm
  · rw [hthreads] at hj
    split_ifs at hj
    exact h.outside j todo' hj
  · rw [hthreads] at hj
    rw [hlocked]
    split_ifs at hj with hji
    · obtain ⟨rfl, hrest⟩ := Thread.inside.inj hj
      obtain ⟨rfl, rfl⟩ : c.actions = rest ∧ todo = todo' := ⟨eq_of_heq hrest.1, hrest.2⟩
      refine ⟨if_pos rfl, ?_⟩
      rw [hji, h.free _ hfree]
      exact h.outside i _ hi
    · obtain ⟨hm, hprogram⟩ := h.inside j m rest todo' hj
      refine ⟨?_, hprogram⟩
      split_ifs
      · rfl
      · exact hm
  · rw [hlocked] at hm
    split_ifs at hm with hmc
    · rw [hmc]
      exact ⟨i, c.actions, todo, (hthreads i).trans (if_pos rfl)⟩
    · obtain ⟨j, rest, todo', hj⟩ := h.holder m hm
      refine ⟨j, rest, todo', (hthreads j).trans ((if_neg ?_).trans hj)⟩
      rintro rfl
      cases hi.symm.trans hj
  · rw [hthreads] at hj hk
    split_ifs at hj hk with hji hki hki
    · exact hji.trans hki.symm
    · obtain ⟨rfl, -⟩ := Thread.inside.inj hj
      exact absurd hk (hnone k _ _)
    · obtain ⟨rfl, -⟩ := Thread.inside.inj hk
      exact absurd hj (hnone j _ _)
    · exact h.alone j k m _ _ _ _ hj hk

/-- **A thread acts** in its section. -/
theorem Serial.perform (h : Serial act value program s past part) {m : M} {a : A m}
    {rest : List (A m)} {todo : List (Critical A)}
    (hi : s.threads i = .inside m (a :: rest) todo) :
    Serial act value program (s.perform act i m a rest todo) past
      (Function.update part m (part m ++ [a])) := by
  obtain ⟨hm, hprogram⟩ := h.inside i m _ todo hi
  have hthreads := fun j => s.perform_threads i j m todo act a rest
  refine ⟨fun m' => ?_, fun m' hm' => ?_, fun j todo' hj => ?_, fun j m' rest' todo' hj => ?_,
    fun m' hm' => ?_, fun j k m' rest' todo' rest'' todo'' hj hk => ?_⟩
  · show Function.update s.value m (act m (s.value m) a) m' = _
    by_cases hmm : m' = m
    · subst hmm
      rw [Function.update_self, Function.update_self, ← List.append_assoc, List.foldl_append,
        ← h.value]
      rfl
    · rw [Function.update_of_ne hmm, Function.update_of_ne hmm]
      exact h.value m'
  · have hmm : m' ≠ m := by
      rintro rfl
      cases hm.symm.trans hm'
    rw [Function.update_of_ne hmm]
    exact h.free m' hm'
  · rw [hthreads] at hj
    split_ifs at hj
    exact h.outside j todo' hj
  · rw [hthreads] at hj
    split_ifs at hj with hji
    · obtain ⟨rfl, hrest⟩ := Thread.inside.inj hj
      obtain ⟨rfl, rfl⟩ : rest = rest' ∧ todo = todo' := ⟨eq_of_heq hrest.1, hrest.2⟩
      refine ⟨hm, ?_⟩
      rw [hji, Function.update_self, List.append_assoc]
      exact hprogram
    · have hmm : m' ≠ m := by
        rintro rfl
        exact hji (h.alone j i m' _ _ _ _ hj hi)
      rw [Function.update_of_ne hmm]
      exact h.inside j m' rest' todo' hj
  · obtain ⟨j, rest', todo', hj⟩ := h.holder m' hm'
    by_cases hji : j = i
    · subst hji
      obtain ⟨rfl, -⟩ := Thread.inside.inj (hi.symm.trans hj)
      exact ⟨j, rest, todo, (hthreads j).trans (if_pos rfl)⟩
    · exact ⟨j, rest', todo', (hthreads j).trans ((if_neg hji).trans hj)⟩
  · have hold : ∀ {j m' rest' todo'}, (s.perform act i m a rest todo).threads j =
        .inside m' rest' todo' → ∃ rest'' todo'', s.threads j = .inside m' rest'' todo'' := by
      intro j m' rest' todo' hj
      rw [hthreads] at hj
      split_ifs at hj with hji
      · obtain ⟨rfl, -⟩ := Thread.inside.inj hj
        exact ⟨_, _, hji ▸ hi⟩
      · exact ⟨_, _, hj⟩
    obtain ⟨_, _, hj⟩ := hold hj
    obtain ⟨_, _, hk⟩ := hold hk
    exact h.alone j k m' _ _ _ _ hj hk

/-- **A thread leaves a section.** -/
theorem Serial.leave (h : Serial act value program s past part) {m : M}
    {todo : List (Critical A)} (hi : s.threads i = .inside m [] todo) :
    Serial act value program (s.leave i m todo) (past ++ [(i, ⟨m, part m⟩)])
      (Function.update part m []) := by
  obtain ⟨hm, hprogram⟩ := h.inside i m _ todo hi
  rw [List.append_nil] at hprogram
  have hthreads := fun j => s.leave_threads i j m todo
  have hlocked := fun m' => s.leave_locked i m m' todo
  have hold : ∀ {j m' rest' todo'}, (s.leave i m todo).threads j = .inside m' rest' todo' →
      j ≠ i ∧ m' ≠ m ∧ s.threads j = .inside m' rest' todo' := by
    intro j m' rest' todo' hj
    rw [hthreads] at hj
    split_ifs at hj with hji
    refine ⟨hji, ?_, hj⟩
    rintro rfl
    exact hji (h.alone j i m' _ _ _ _ hj hi)
  refine ⟨fun m' => ?_, fun m' hm' => ?_, fun j todo' hj => ?_, fun j m' rest' todo' hj => ?_,
    fun m' hm' => ?_, fun j k m' rest' todo' rest'' todo'' hj hk => ?_⟩
  · rw [actionsOn_concat]
    by_cases hmm : m' = m
    · subst hmm
      rw [Critical.on_self, Function.update_self, List.append_nil]
      exact h.value m'
    · rw [Critical.on_of_ne (Ne.symm hmm), Function.update_of_ne hmm, List.append_nil]
      exact h.value m'
  · by_cases hmm : m' = m
    · subst hmm
      exact Function.update_self _ _ _
    · rw [hlocked, if_neg hmm] at hm'
      rw [Function.update_of_ne hmm]
      exact h.free m' hm'
  · rw [hthreads] at hj
    split_ifs at hj with hji
    · obtain rfl := Thread.outside.inj hj
      rw [hji, sectionsOf_concat_self, List.append_assoc]
      exact hprogram
    · rw [sectionsOf_concat_of_ne past (Ne.symm hji)]
      exact h.outside j todo' hj
  · obtain ⟨hji, hmm, hj⟩ := hold hj
    rw [hlocked, if_neg hmm, sectionsOf_concat_of_ne past hji.symm, Function.update_of_ne hmm]
    exact h.inside j m' rest' todo' hj
  · rw [hlocked] at hm'
    split_ifs at hm' with hmm
    obtain ⟨j, rest', todo', hj⟩ := h.holder m' hm'
    refine ⟨j, rest', todo', (hthreads j).trans ((if_neg ?_).trans hj)⟩
    rintro rfl
    obtain ⟨rfl, -⟩ := Thread.inside.inj (hi.symm.trans hj)
    exact hmm rfl
  · exact h.alone j k m' _ _ _ _ (hold hj).2.2 (hold hk).2.2

/-- **One step** keeps the invariant. -/
theorem Serial.step (h : Serial act value program s past part)
    (hstep : Mutex.step act s i = .ok s') :
    ∃ past' part', Serial act value program s' past' part' := by
  unfold Mutex.step at hstep
  match hi : s.threads i with
  | .outside [] =>
      rw [hi] at hstep
      cases hstep
  | .outside (c :: todo) =>
      simp only [hi] at hstep
      split_ifs at hstep with hlocked
      obtain rfl := Except.ok.inj hstep
      exact ⟨past, part, h.enter hi (Bool.not_eq_true _ ▸ hlocked)⟩
  | .inside m [] todo =>
      simp only [hi] at hstep
      obtain rfl := Except.ok.inj hstep
      exact ⟨_, _, h.leave hi⟩
  | .inside m (a :: rest) todo =>
      simp only [hi] at hstep
      obtain rfl := Except.ok.inj hstep
      exact ⟨_, _, h.perform hi⟩

/-- **A run** keeps the invariant. -/
theorem Serial.run (h : Serial act value program s past part) {l : List ι}
    (hrun : l.foldlM (Mutex.step act) s = .ok s') :
    ∃ past' part', Serial act value program s' past' part' := by
  induction l generalizing s past part with
  | nil =>
      obtain rfl := Except.ok.inj hrun
      exact ⟨past, part, h⟩
  | cons i l ih =>
      obtain ⟨s₁, hstep, hrun⟩ := foldlM_cons_ok.mp hrun
      obtain ⟨past₁, part₁, h₁⟩ := h.step hstep
      exact ih h₁ hrun

/-- **Some thread can go on** unless all have gone through their programs. -/
theorem Serial.progress (h : Serial act value program s past part)
    (hstuck : ∀ i, ∃ e, Mutex.step act s i = .error e) (i : ι) : s.threads i = .outside [] := by
  have houtside : ∀ j m rest todo, s.threads j ≠ .inside m rest todo := by
    intro j m rest todo hj
    obtain ⟨e, he⟩ := hstuck j
    cases rest <;> simp only [Mutex.step, hj] at he <;> cases he
  obtain ⟨e, he⟩ := hstuck i
  match hi : s.threads i with
  | .outside [] => rfl
  | .inside m rest todo => exact absurd hi (houtside i m rest todo)
  | .outside (c :: todo) =>
      have hfree : s.locked c.mutex = false := by
        by_contra hlocked
        obtain ⟨j, rest, todo', hj⟩ := h.holder c.mutex (Bool.not_eq_false _ ▸ hlocked)
        exact houtside j _ _ _ hj
      simp only [Mutex.step, hi, hfree] at he
      cases he

/-- **In the end** all sections have been gone through as a whole, one after the other. -/
theorem Serial.ended (h : Serial act value program s past part)
    (hend : ∀ i, s.threads i = .outside []) :
    (∀ i, sectionsOf past i = program i) ∧
      ∀ m, s.value m = (actionsOn past m).foldl (act m) (value m) := by
  refine ⟨fun i => ?_, fun m => ?_⟩
  · rw [h.outside i [] (hend i), List.append_nil]
  · have hfree : s.locked m = false := by
      by_contra hlocked
      obtain ⟨j, rest, todo, hj⟩ := h.holder m (Bool.not_eq_false _ ▸ hlocked)
      cases (hend j).symm.trans hj
    rw [h.value, h.free m hfree, List.append_nil]

/-! ### The end of a run -/

/-- The steps of a section. -/
def Critical.steps (c : Critical A) : ℕ := c.actions.length + 2

/-- The steps that a thread has before it. -/
def Thread.remaining : Thread A → ℕ
  | .outside todo => total Critical.steps todo
  | .inside _ rest todo => rest.length + 1 + total Critical.steps todo

theorem step_remaining (hstep : Mutex.step act s i = .ok s') :
    (s.threads i).remaining = (s'.threads i).remaining + 1 ∧
      ∀ j, j ≠ i → s'.threads j = s.threads j := by
  unfold Mutex.step at hstep
  match hi : s.threads i with
  | .outside [] =>
      rw [hi] at hstep
      cases hstep
  | .outside (c :: todo) =>
      simp only [hi] at hstep
      split_ifs at hstep
      obtain rfl := Except.ok.inj hstep
      refine ⟨?_, fun j hj => Function.update_of_ne hj _ _⟩
      rw [System.enter_threads, if_pos rfl, Thread.remaining, Thread.remaining, total_cons,
        Critical.steps]
      omega
  | .inside m [] todo =>
      simp only [hi] at hstep
      obtain rfl := Except.ok.inj hstep
      refine ⟨?_, fun j hj => Function.update_of_ne hj _ _⟩
      rw [System.leave_threads, if_pos rfl, Thread.remaining, Thread.remaining, List.length_nil]
      omega
  | .inside m (a :: rest) todo =>
      simp only [hi] at hstep
      obtain rfl := Except.ok.inj hstep
      refine ⟨?_, fun j hj => Function.update_of_ne hj _ _⟩
      rw [System.perform_threads, if_pos rfl, Thread.remaining, Thread.remaining,
        List.length_cons]
      omega

/-- The steps that all threads have before them. -/
def System.remaining [Fintype ι] (s : System ι S A) : ℕ := ∑ i, (s.threads i).remaining

/-- **A run has as many steps** as there are, if no thread waits forever. -/
theorem run_remaining [Fintype ι] {l : List ι} (hrun : l.foldlM (Mutex.step act) s = .ok s') :
    l.length + s'.remaining = s.remaining := by
  induction l generalizing s with
  | nil =>
      obtain rfl := Except.ok.inj hrun
      exact Nat.zero_add _
  | cons i l ih =>
      obtain ⟨s₁, hstep, hrun⟩ := foldlM_cons_ok.mp hrun
      obtain ⟨hi, hothers⟩ := step_remaining hstep
      have hsum : s.remaining = s₁.remaining + 1 := by
        have hrest : ∑ j ∈ Finset.univ.erase i, (s.threads j).remaining =
            ∑ j ∈ Finset.univ.erase i, (s₁.threads j).remaining :=
          Finset.sum_congr rfl fun j hj => by rw [hothers j (Finset.ne_of_mem_erase hj)]
        rw [System.remaining, System.remaining, ← Finset.add_sum_erase _ _ (Finset.mem_univ i),
          ← Finset.add_sum_erase _ _ (Finset.mem_univ i), hrest, hi]
        omega
      rw [List.length_cons, hsum, ← ih hrun]
      omega

/-! ### One section for each thread -/

/-- The threads in the order of their sections of a mutex. -/
def ownersOn (past : List (ι × Critical A)) (m : M) : List ι :=
  (past.filter fun c => c.2.mutex = m).map Prod.fst

omit [DecidableEq ι] in
theorem actionsOn_eq_flatMap {m : M} {f : ι → List (A m)}
    (h : ∀ c ∈ past, c.2.mutex = m → c.2.on m = f c.1) :
    actionsOn past m = (ownersOn past m).flatMap f := by
  induction past with
  | nil => rfl
  | cons c past ih =>
      have hrest := ih fun c' hc' => h c' (List.mem_cons_of_mem c hc')
      rw [actionsOn, List.flatMap_cons, ownersOn, List.filter_cons]
      by_cases hc : c.2.mutex = m
      · rw [if_pos (decide_eq_true hc), List.map_cons, List.flatMap_cons,
          h c List.mem_cons_self hc]
        exact congrArg (f c.1 ++ ·) hrest
      · rw [if_neg (by rw [decide_eq_true_iff]; exact hc), Critical.on_of_ne hc]
        exact hrest

theorem count_ownersOn (past : List (ι × Critical A)) (m : M) (i : ι) :
    (ownersOn past m).count i = ((sectionsOf past i).filter fun c => c.mutex = m).length := by
  induction past with
  | nil => rfl
  | cons c past ih =>
      rw [ownersOn, sectionsOf, List.filter_cons, List.filter_cons]
      by_cases hc : c.2.mutex = m <;> by_cases hi : c.1 = i
      all_goals
        simp [hc, hi, ownersOn, sectionsOf] at ih ⊢
        exact ih

/-- **Each thread has one section of a mutex:** the actions are those of the threads in some
order. -/
theorem exists_order {m : M} {f : ι → List (A m)} (hpast : ∀ i, sectionsOf past i = program i)
    (hone : ∀ i, ∃ c, (program i).filter (fun c => c.mutex = m) = [c] ∧ c.on m = f i) :
    ∃ order : List ι, order.Nodup ∧ (∀ i, i ∈ order) ∧ actionsOn past m = order.flatMap f := by
  have hcount : ∀ i, (ownersOn past m).count i = 1 := fun i => by
    obtain ⟨c, hc, -⟩ := hone i
    rw [count_ownersOn, hpast, hc]
    rfl
  refine ⟨ownersOn past m, List.nodup_iff_count_le_one.mpr fun i => (hcount i).le, fun i => ?_,
    actionsOn_eq_flatMap fun c hc hm => ?_⟩
  · exact List.count_pos_iff.mp (by rw [hcount]; exact Nat.one_pos)
  · obtain ⟨c', hc', hon⟩ := hone c.1
    have hmem : c.2 ∈ (program c.1).filter fun c => c.mutex = m := by
      rw [← hpast, List.mem_filter, decide_eq_true_iff]
      exact ⟨List.mem_map.mpr ⟨c, List.mem_filter.mpr ⟨hc, decide_eq_true rfl⟩, rfl⟩, hm⟩
    rw [hc'] at hmem
    rw [List.mem_singleton.mp hmem]
    exact hon

end Mutex
