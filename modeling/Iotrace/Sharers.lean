/-
# The invariant of threads that share a table

The counter holds the number of the threads that have not given up their share
(`Sharers.sharers`).  While there is one, nobody owns the shared table, counter and
mutex; the last one to give up its share becomes their owner.  A thread that has given
up its share works on cells of its own (`Local.owns`), and no cell ever has two owners
(`Ownership.Separated`).

`Sound.step` says that whatever step a thread takes next succeeds, keeps this and
changes no table that the thread does not own.  There is one lemma for each step; most
of them are cases of three rules: the thread leaves the heap alone (`Sound.idle`),
changes a cell that it owns (`Sound.changeCell`) or gives up its share
(`Sound.giveUp`), which makes it the owner of the shared cells if it is the last one.
-/

import Iotrace.ThreadSteps
import Iotrace.TableEffect
import Iotrace.Library.Ownership
import Mathlib.Data.Fintype.Card

namespace Iotrace

open Ownership

/-! ### What a thread owns -/

/-- The cells of the heap. -/
inductive Cell where
  | table (a : ℕ)
  | count (a : ℕ)
  | mutex (a : ℕ)

/-- The cell is allocated. -/
def Heap.Alive (heap : Heap) : Cell → Prop
  | .table a => (heap.tables.cell a).isSome
  | .count a => (heap.counts.cell a).isSome
  | .mutex a => (heap.mutexes.cell a).isSome

/-- The cell is the same in both heaps. -/
def Heap.SameAt (heap heap' : Heap) : Cell → Prop
  | .table a => heap'.tables.cell a = heap.tables.cell a
  | .count a => heap'.counts.cell a = heap.counts.cell a
  | .mutex a => heap'.mutexes.cell a = heap.mutexes.cell a

namespace Heap.SameAt

variable {heap : Heap} {b : ℕ} {x : Cell}

theorem tables {tables : Arena FdTable}
    (h : ∀ c, c ≠ b → tables.cell c = heap.tables.cell c) (hx : x ≠ .table b) :
    heap.SameAt { heap with tables } x := by
  cases x with
  | table c => exact h c fun hc => hx (congrArg Cell.table hc)
  | count c => rfl
  | mutex c => rfl

theorem counts {counts : Arena ℤ} (h : ∀ c, c ≠ b → counts.cell c = heap.counts.cell c)
    (hx : x ≠ .count b) : heap.SameAt { heap with counts } x := by
  cases x with
  | table c => rfl
  | count c => exact h c fun hc => hx (congrArg Cell.count hc)
  | mutex c => rfl

theorem mutexes {mutexes : Arena Unit}
    (h : ∀ c, c ≠ b → mutexes.cell c = heap.mutexes.cell c) (hx : x ≠ .mutex b) :
    heap.SameAt { heap with mutexes } x := by
  cases x with
  | table c => rfl
  | count c => rfl
  | mutex c => exact h c fun hc => hx (congrArg Cell.mutex hc)

end Heap.SameAt

/-- The cells that belong to the thread alone: its copy; the shared ones once it is
the last to share them; its new ones. -/
def Local.owns (l : Local) : Set Cell :=
  match l.pc with
  | .execve | .copying | .leaving | .gone => ∅
  | .decrementing fdCopy | .allocating fdCopy => {.table fdCopy}
  | .freeing fdCopy =>
    {.table fdCopy, .table l.tmps.fdTable, .count l.tmps.shareCount, .mutex l.tmps.fdMutex}
  | .installing fdCopy => {.table fdCopy, .count l.tmps.shareCount, .mutex l.tmps.fdMutex}
  | .removing | .done | .freeingTable =>
    {.table l.tmps.fdTable, .count l.tmps.shareCount, .mutex l.tmps.fdMutex}
  | .freeingCount => {.count l.tmps.shareCount, .mutex l.tmps.fdMutex}
  | .freeingMutex => {.mutex l.tmps.fdMutex}

/-- What a thread finds in the cells that it owns; while it shares, its record
refers to the shared cells `a`, `k` and `m`. -/
def Local.Ok (a k m : ℕ) (t : FdTable) (heap : Heap) (l : Local) : Prop :=
  match l.pc with
  | .execve | .copying | .leaving =>
    l.tmps.fdTable = a ∧ l.tmps.shareCount = k ∧ l.tmps.fdMutex = m
  | .decrementing fdCopy =>
    (l.tmps.fdTable = a ∧ l.tmps.shareCount = k ∧ l.tmps.fdMutex = m) ∧
      heap.tables.cell fdCopy = some t
  | .allocating fdCopy => heap.tables.cell fdCopy = some t
  | .freeing fdCopy => heap.tables.cell fdCopy = some t ∧
      heap.tables.cell l.tmps.fdTable = some t ∧ fdCopy ≠ l.tmps.fdTable ∧
      heap.counts.cell l.tmps.shareCount = some 0 ∧ heap.mutexes.cell l.tmps.fdMutex = some ()
  | .installing fdCopy => heap.tables.cell fdCopy = some t ∧
      heap.counts.cell l.tmps.shareCount = some 0 ∧ heap.mutexes.cell l.tmps.fdMutex = some ()
  | .removing => heap.tables.cell l.tmps.fdTable = some t ∧
      heap.counts.cell l.tmps.shareCount = some 1 ∧ heap.mutexes.cell l.tmps.fdMutex = some ()
  | .done => heap.tables.cell l.tmps.fdTable = some (fdTableRemoveCloexec t) ∧
      heap.counts.cell l.tmps.shareCount = some 1 ∧ heap.mutexes.cell l.tmps.fdMutex = some ()
  | .freeingTable => heap.tables.cell l.tmps.fdTable = some t ∧
      heap.counts.cell l.tmps.shareCount = some 0 ∧ heap.mutexes.cell l.tmps.fdMutex = some ()
  | .freeingCount =>
    heap.counts.cell l.tmps.shareCount = some 0 ∧ heap.mutexes.cell l.tmps.fdMutex = some ()
  | .freeingMutex => heap.mutexes.cell l.tmps.fdMutex = some ()
  | .gone => True

/-- A thread relies on the cells that it owns only. -/
theorem Local.Ok.frame {a k m : ℕ} {t : FdTable} {heap heap' : Heap} {l : Local}
    (h : l.Ok a k m t heap) (hsame : ∀ x ∈ l.owns, heap.SameAt heap' x) : l.Ok a k m t heap' := by
  obtain ⟨tmps, pc⟩ := l
  cases pc <;>
    simp_all [Local.Ok, Local.owns, Heap.SameAt]

/-- What a thread owns is alive. -/
theorem Local.Ok.alive {a k m : ℕ} {t : FdTable} {heap : Heap} {l : Local}
    (h : l.Ok a k m t heap) {x : Cell} (hx : x ∈ l.owns) : heap.Alive x := by
  obtain ⟨tmps, pc⟩ := l
  cases x <;> cases pc <;>
    simp only [Local.Ok, Local.owns, Set.mem_insert_iff, Set.mem_singleton_iff, Heap.Alive,
      Set.mem_empty_iff_false, Cell.table.injEq, Cell.count.injEq, Cell.mutex.injEq, reduceCtorEq,
      false_or, or_false] at h hx ⊢
  case table.freeing =>
    rcases hx with rfl | rfl
    · rw [h.1]
      rfl
    · rw [h.2.1]
      rfl
  all_goals
    subst hx
    simp [h]

namespace Sharers

section Put

variable {ι : Type} [DecidableEq ι] {s : Sharers ι} {i : ι}

/-- The system after a step of one thread. -/
def put (s : Sharers ι) (i : ι) (heap : Heap) (l : Local) : Sharers ι :=
  ⟨heap, Function.update s.thread i l⟩

end Put

variable {ι : Type} [Fintype ι]

/-- The number of threads that share the table still. -/
def sharers (s : Sharers ι) : ℕ :=
  (Finset.univ.filter fun i => (s.thread i).pc.sharing = true).card

/-- All threads have the table at `a` with the contents `t`, the counter at `k` and
the mutex at `m`, and are about to call `execve` or to end. -/
structure Starts (s : Sharers ι) (a k m : ℕ) (t : FdTable) : Prop where
  refs : ∀ i, (s.thread i).tmps.fdTable = a ∧ (s.thread i).tmps.shareCount = k ∧
    (s.thread i).tmps.fdMutex = m
  pc : ∀ i, (s.thread i).pc = .execve ∨ (s.thread i).pc = .leaving
  table : s.heap.tables.cell a = some t
  count : s.heap.counts.cell k = some (Fintype.card ι : ℤ)
  mutex : s.heap.mutexes.cell m = some ()

/-- The first state of threads that share one table with the contents `t`. -/
def start (t : FdTable) (pc : ι → Pc) : Sharers ι where
  heap := ⟨Arena.empty.alloc t, Arena.empty.alloc (Fintype.card ι : ℤ), Arena.empty.alloc ()⟩
  thread i := ⟨(Tracer.ofTable t).tmps, pc i⟩

/-- The shared cells while they are shared: nobody owns them. -/
structure Shared (s : Sharers ι) (a k m : ℕ) (t : FdTable) : Prop where
  table : s.heap.tables.cell a = some t
  count : s.heap.counts.cell k = some (s.sharers : ℤ)
  mutex : s.heap.mutexes.cell m = some ()
  unowned : ∀ j, ∀ x ∈ ({.table a, .count k, .mutex m} : Set Cell), x ∉ (s.thread j).owns

/-- **The invariant.** -/
structure Sound (s : Sharers ι) (a k m : ℕ) (t : FdTable) : Prop where
  separated : Separated Local.owns (fun heap l => l.Ok a k m t heap) s.heap s.thread
  shared : ∀ i, (s.thread i).pc.sharing = true → s.Shared a k m t
  kept : (s.heap.tables.cell a).isSome →
    ∃ i, (s.thread i).pc.sharing = true ∨ Cell.table a ∈ (s.thread i).owns

theorem Starts.sound {s : Sharers ι} {a k m : ℕ} {t : FdTable} (h : s.Starts a k m t)
    [Nonempty ι] : s.Sound a k m t := by
  have hsharing : ∀ i, (s.thread i).pc.sharing = true := fun i => by
    rcases h.pc i with hpc | hpc <;> rw [hpc] <;> rfl
  have howns : ∀ i, (s.thread i).owns = ∅ := fun i => by
    rcases h.pc i with hpc | hpc <;> simp only [Local.owns, hpc]
  have hcount : s.sharers = Fintype.card ι := by
    rw [sharers, Finset.filter_true_of_mem fun i _ => hsharing i, Finset.card_univ]
  refine ⟨⟨fun i => ?_, fun i j x hx => ?_⟩, fun _ _ => ⟨h.table, ?_, h.mutex, fun j x _ => ?_⟩,
    fun _ => ?_⟩
  · rcases h.pc i with hpc | hpc <;> simp only [Local.Ok, hpc] <;> exact h.refs i
  · rw [howns i] at hx
    exact hx.elim
  · rw [hcount]
    exact h.count
  · rw [howns j]
    exact Set.notMem_empty x
  · obtain ⟨i⟩ := ‹Nonempty ι›
    exact ⟨i, Or.inl (hsharing i)⟩

variable {s : Sharers ι} {a k m : ℕ} {t : FdTable} {i : ι}

/-- A thread that shares is counted. -/
theorem sharers_pos (h : (s.thread i).pc.sharing = true) : 0 < s.sharers :=
  Finset.card_pos.mpr ⟨i, Finset.mem_filter.mpr ⟨Finset.mem_univ i, h⟩⟩

/-- What a thread relies on where it stands. -/
theorem Sound.ok (h : s.Sound a k m t) {l : Local} (hl : s.thread i = l) :
    l.Ok a k m t s.heap :=
  hl ▸ h.separated.ok i

variable [DecidableEq ι]

theorem sharers_put_same (heap : Heap) {l : Local}
    (h : l.pc.sharing = (s.thread i).pc.sharing) : (s.put i heap l).sharers = s.sharers := by
  unfold sharers
  congr 1
  refine Finset.filter_congr fun j _ => ?_
  simp only [put, Function.update_apply]
  split_ifs with hj
  · rw [hj, h]
  · rfl

theorem sharers_put_left (heap : Heap) {l : Local} (h : (s.thread i).pc.sharing = true)
    (hl : l.pc.sharing = false) : (s.put i heap l).sharers + 1 = s.sharers := by
  have herase : (Finset.univ.filter fun j => ((s.put i heap l).thread j).pc.sharing = true) =
      (Finset.univ.filter fun j => (s.thread j).pc.sharing = true).erase i := by
    ext j
    simp only [put, Function.update_apply, Finset.mem_filter, Finset.mem_univ, true_and,
      Finset.mem_erase]
    split_ifs with hj
    · simp [hj, hl]
    · simp [hj]
  unfold sharers
  rw [herase]
  exact Finset.card_erase_add_one (Finset.mem_filter.mpr ⟨Finset.mem_univ i, h⟩)

/-- The step of a thread that leaves the cells of the others alone. -/
theorem Sound.separated_put (h : s.Sound a k m t) {heap : Heap} {l : Local}
    (hok : l.Ok a k m t heap)
    (hsame : ∀ j, j ≠ i → ∀ x ∈ (s.thread j).owns, s.heap.SameAt heap x)
    (howns : ∀ x ∈ l.owns, x ∈ (s.thread i).owns ∨ ∀ j, x ∉ (s.thread j).owns) :
    Separated Local.owns (fun heap l => l.Ok a k m t heap) (s.put i heap l).heap
      (s.put i heap l).thread := by
  refine Separated.update ?_ h.separated hok hsame howns
  exact fun _ _ _ => Local.Ok.frame

/-- **A thread works on its own cells**, with what it allocates, and shares as before. -/
theorem Sound.ownStep (h : s.Sound a k m t) {heap : Heap} {l : Local}
    (hsharing : l.pc.sharing = (s.thread i).pc.sharing) (hok : l.Ok a k m t heap)
    (hsame : ∀ x, x ∉ (s.thread i).owns → s.heap.Alive x → s.heap.SameAt heap x)
    (htaken : ∀ x ∈ l.owns, x ∈ (s.thread i).owns ∨ ¬s.heap.Alive x)
    (hkept : ∀ b, (heap.tables.cell b).isSome → Cell.table b ∈ l.owns ∨
      Cell.table b ∉ (s.thread i).owns ∧ (s.heap.tables.cell b).isSome) :
    (s.put i heap l).Sound a k m t := by
  have hsep := h.separated
  have hsharing' : ∀ j, ((s.put i heap l).thread j).pc.sharing = (s.thread j).pc.sharing := by
    intro j
    simp only [put, Function.update_apply]
    split_ifs with hj
    · rw [hj, hsharing]
    · rfl
  refine ⟨h.separated_put hok (fun j hj x hx => ?_) fun x hx => ?_,
    fun j hj => ?_, fun hsome => ?_⟩
  · exact hsame x (fun hi => hsep.not_mem hj hi hx) ((hsep.ok j).alive hx)
  · exact (htaken x hx).imp id fun hdead j hj => hdead ((hsep.ok j).alive hj)
  · rw [hsharing'] at hj
    obtain ⟨htable, hcount, hmutex, hunowned⟩ := h.shared j hj
    have hk : s.heap.SameAt heap (.table a) := hsame _ (hunowned i _ (by simp)) (by
      simp only [Heap.Alive, htable, Option.isSome_some])
    have hc : s.heap.SameAt heap (.count k) := hsame _ (hunowned i _ (by simp)) (by
      simp only [Heap.Alive, hcount, Option.isSome_some])
    have hm : s.heap.SameAt heap (.mutex m) := hsame _ (hunowned i _ (by simp)) (by
      simp only [Heap.Alive, hmutex, Option.isSome_some])
    refine ⟨hk.trans htable, ?_, hm.trans hmutex, fun j' x hx hmem => ?_⟩
    · rw [sharers_put_same heap hsharing]
      exact hc.trans hcount
    · simp only [put, Function.update_apply] at hmem
      split_ifs at hmem
      · rcases htaken x hmem with hi | hdead
        · exact hunowned i x hx hi
        · refine hdead ?_
          rcases hx with rfl | rfl | rfl
          · simp only [Heap.Alive, htable, Option.isSome_some]
          · simp only [Heap.Alive, hcount, Option.isSome_some]
          · simp only [Heap.Alive, hmutex, Option.isSome_some]
      · exact hunowned j' x hx hmem
  · rcases hkept a hsome with hmine | ⟨hnot, hbefore⟩
    · exact ⟨i, Or.inr (by simpa only [put, Function.update_self] using hmine)⟩
    · obtain ⟨j, hj⟩ := h.kept hbefore
      refine ⟨j, ?_⟩
      rw [hsharing']
      refine hj.imp id fun hj => ?_
      have hne : j ≠ i := by
        rintro rfl
        exact hnot hj
      simpa only [put, Function.update_of_ne hne] using hj

/-- **A thread gives up its share**, and others have theirs still. -/
theorem Sound.leaveOthers (h : s.Sound a k m t) (hi : (s.thread i).pc.sharing = true)
    (hothers : 1 < s.sharers) {l : Local} (hl : l.pc.sharing = false)
    (hok : l.Ok a k m t { s.heap with counts := s.heap.counts.write k (s.sharers - 1) })
    (howns : ∀ x ∈ l.owns, x ∈ (s.thread i).owns) :
    (s.put i { s.heap with counts := s.heap.counts.write k (s.sharers - 1) } l).Sound a k m t := by
  have hsep := h.separated
  obtain ⟨htable, hcount, hmutex, hunowned⟩ := h.shared i hi
  have hleft := sharers_put_left
    { s.heap with counts := s.heap.counts.write k (s.sharers - 1) } hi hl
  have hsame : ∀ x, x ≠ .count k →
      s.heap.SameAt { s.heap with counts := s.heap.counts.write k (s.sharers - 1) } x :=
    fun x hx => .counts (fun b hb => Arena.write_cell_ne _ _ hb) hx
  refine ⟨h.separated_put hok (fun j _ x hx => hsame x ?_)
    fun x hx => Or.inl (howns x hx), fun j _ => ?_, fun _ => ?_⟩
  · rintro rfl
    exact hunowned j _ (by simp) hx
  · refine ⟨htable, ?_, hmutex, fun j x hx hmem => ?_⟩
    · change (s.heap.counts.write k _).cell k = _
      rw [Arena.write_cell_self hcount]
      congr 1
      omega
    · simp only [put, Function.update_apply] at hmem
      split_ifs at hmem
      · exact hunowned i x hx (howns x hmem)
      · exact hunowned j x hx hmem
  · have hpos : 0 < (s.put i { s.heap with
        counts := s.heap.counts.write k (s.sharers - 1) } l).sharers := by omega
    obtain ⟨j, hj⟩ := Finset.card_pos.mp hpos
    exact ⟨j, Or.inl (Finset.mem_filter.mp hj).2⟩

/-- **The last thread to share takes over** the shared cells. -/
theorem Sound.inherit (h : s.Sound a k m t) (hi : (s.thread i).pc.sharing = true)
    (hone : s.sharers = 1) {counts : Arena ℤ} {l : Local} (hl : l.pc.sharing = false)
    (hcounts : ∀ b, b ≠ k → counts.cell b = s.heap.counts.cell b)
    (hok : l.Ok a k m t { s.heap with counts })
    (howns : ∀ x ∈ l.owns, x ∈ (s.thread i).owns ∨
      x ∈ ({.table a, .count k, .mutex m} : Set Cell))
    (hmine : Cell.table a ∈ l.owns) : (s.put i { s.heap with counts } l).Sound a k m t := by
  have hsep := h.separated
  have hunowned := (h.shared i hi).unowned
  refine ⟨h.separated_put hok (fun j _ x hx => ?_) fun x hx => ?_,
    fun j hj => ?_, fun _ => ⟨i, Or.inr ?_⟩⟩
  · refine .counts hcounts ?_
    rintro rfl
    exact hunowned j _ (by simp) hx
  · exact (howns x hx).imp id fun hx j => hunowned j x hx
  · have hleft := sharers_put_left { s.heap with counts } hi hl
    have hzero : (s.put i { s.heap with counts } l).sharers = 0 := by omega
    have hpos := sharers_pos hj
    omega
  · simpa only [put, Function.update_self] using hmine

/-! ### One atomic step -/

/-- The next step of the thread succeeds, keeps the invariant and changes no table
that the thread does not own. -/
def StepsSoundly (s : Sharers ι) (a k m : ℕ) (t : FdTable) (i : ι) : Prop :=
  ∃ heap l, threadStep s.heap (s.thread i) = .ok (heap, l) ∧ (s.put i heap l).Sound a k m t ∧
    ∀ b, (s.heap.tables.cell b).isSome → Cell.table b ∉ (s.thread i).owns →
      heap.tables.cell b = s.heap.tables.cell b

theorem Sound.stepsSoundly (h : s.Sound a k m t) {heap : Heap} {l : Local}
    (hstep : threadStep s.heap (s.thread i) = .ok (heap, l))
    (hsharing : l.pc.sharing = (s.thread i).pc.sharing) (hok : l.Ok a k m t heap)
    (hsame : ∀ x, x ∉ (s.thread i).owns → s.heap.Alive x → s.heap.SameAt heap x)
    (htaken : ∀ x ∈ l.owns, x ∈ (s.thread i).owns ∨ ¬s.heap.Alive x)
    (hkept : ∀ b, (heap.tables.cell b).isSome → Cell.table b ∈ l.owns ∨
      Cell.table b ∉ (s.thread i).owns ∧ (s.heap.tables.cell b).isSome) :
    s.StepsSoundly a k m t i :=
  ⟨heap, l, hstep, h.ownStep hsharing hok hsame htaken hkept,
    fun b hb hnot => hsame (.table b) hnot hb⟩

/-- **A step that changes one cell**, which the thread owns. -/
theorem Sound.changeCell (h : s.Sound a k m t) {heap : Heap} {l : Local}
    (hstep : threadStep s.heap (s.thread i) = .ok (heap, l))
    (hsharing : l.pc.sharing = (s.thread i).pc.sharing) (hok : l.Ok a k m t heap)
    {x : Cell} (hx : x ∈ (s.thread i).owns) (hsame : ∀ y, y ≠ x → s.heap.SameAt heap y)
    (howns : ∀ y ∈ l.owns, y ∈ (s.thread i).owns)
    (hlost : ∀ b, Cell.table b ∈ (s.thread i).owns → Cell.table b ∉ l.owns →
      heap.tables.cell b = none) : s.StepsSoundly a k m t i := by
  have hother : ∀ y, y ∉ (s.thread i).owns → s.heap.SameAt heap y := fun y hy =>
    hsame y fun heq => hy (heq ▸ hx)
  refine h.stepsSoundly hstep hsharing hok (fun y hy _ => hother y hy)
    (fun y hy => Or.inl (howns y hy)) fun b hb => ?_
  by_cases hl : Cell.table b ∈ l.owns
  · exact Or.inl hl
  · by_cases hi : Cell.table b ∈ (s.thread i).owns
    · rw [hlost b hi hl] at hb
      cases hb
    · have hcell : heap.tables.cell b = s.heap.tables.cell b := hother (.table b) hi
      exact Or.inr ⟨hi, hcell ▸ hb⟩

/-- **A thread gives up its share**, and finds out whether it was the last one. -/
theorem Sound.giveUp (h : s.Sound a k m t) {l : Bool → Local}
    (hi : (s.thread i).pc.sharing = true) (hk : (s.thread i).tmps.shareCount = k)
    (hstep : threadStep s.heap (s.thread i) =
      s.heap.atomicDecAndTest (s.thread i).tmps.shareCount >>= fun r => .ok (r.2, l r.1))
    (hsharing : ∀ last, (l last).pc.sharing = false)
    (hothers : ∀ counts, (l false).Ok a k m t { s.heap with counts })
    (hlast : ∀ counts, counts.cell k = some 0 → (l true).Ok a k m t { s.heap with counts })
    (hleft : ∀ x ∈ (l false).owns, x ∈ (s.thread i).owns)
    (htaken : ∀ x ∈ (l true).owns, x ∈ (s.thread i).owns ∨
      x ∈ ({.table a, .count k, .mutex m} : Set Cell))
    (hmine : Cell.table a ∈ (l true).owns) : s.StepsSoundly a k m t i := by
  have hcount := (h.shared i hi).count
  rw [hk, Heap.atomicDecAndTest_of_cell hcount, ok_bind] at hstep
  have hpos := sharers_pos hi
  rcases Nat.lt_or_ge 1 s.sharers with htwo | hone
  · have htest : ((s.sharers : ℤ) - 1 == 0) = false := by
      rw [beq_eq_false_iff_ne]
      omega
    rw [htest] at hstep
    exact ⟨_, _, hstep, h.leaveOthers hi htwo (hsharing false) (hothers _) hleft,
      fun _ _ _ => rfl⟩
  · have hone : s.sharers = 1 := by omega
    have hzero : (s.heap.counts.write k (s.sharers - 1)).cell k = some 0 := by
      rw [Arena.write_cell_self hcount, hone]
      rfl
    have htest : ((s.sharers : ℤ) - 1 == 0) = true := by
      rw [hone]
      rfl
    rw [htest] at hstep
    exact ⟨_, _, hstep, h.inherit hi hone (hsharing true) (fun b => Arena.write_cell_ne _ _)
      (hlast _ hzero) htaken hmine, fun _ _ _ => rfl⟩

section Step

variable {tmps : ThreadTmps}

/-- A step that leaves the heap as it is. -/
theorem Sound.idle (h : s.Sound a k m t) {pc pc' : Pc} (hl : s.thread i = ⟨tmps, pc⟩)
    (hstep : threadStep s.heap ⟨tmps, pc⟩ = .ok (s.heap, ⟨tmps, pc'⟩))
    (hsharing : pc'.sharing = pc.sharing) (hok : Local.Ok a k m t s.heap ⟨tmps, pc'⟩)
    (howns : Local.owns ⟨tmps, pc'⟩ = Local.owns ⟨tmps, pc⟩) : s.StepsSoundly a k m t i := by
  refine h.stepsSoundly (by rw [hl, hstep]) (by rw [hl, hsharing]) hok (fun x _ _ => ?_)
    (fun x hx => Or.inl (by rw [hl, ← howns]; exact hx)) fun b hb => ?_
  · cases x <;> rfl
  · by_cases hmem : Cell.table b ∈ (s.thread i).owns
    · rw [hl, ← howns] at hmem
      exact Or.inl hmem
    · exact Or.inr ⟨hmem, hb⟩

/-- The thread reads the counter: it is right, and if it says 1 then the thread is
alone and the shared cells are its own. -/
theorem Sound.execve (h : s.Sound a k m t) (hl : s.thread i = ⟨tmps, .execve⟩) :
    s.StepsSoundly a k m t i := by
  obtain ⟨rfl, rfl, rfl⟩ : tmps.fdTable = a ∧ tmps.shareCount = k ∧ tmps.fdMutex = m := h.ok hl
  have hi : (s.thread i).pc.sharing = true := by rw [hl]; rfl
  obtain ⟨htable, hcount, hmutex, -⟩ := h.shared i hi
  have hget := Heap.atomicGet_of_cell hcount
  have hpos := sharers_pos hi
  rcases Nat.lt_or_ge 1 s.sharers with htwo | hone
  · have hgt : (s.sharers : ℤ) > 1 := by omega
    have hstep : threadStep s.heap ⟨tmps, .execve⟩ = .ok (s.heap, ⟨tmps, .copying⟩) := by
      simp only [threadStep, hget, ok_bind, hgt, if_true]
    exact h.idle hl hstep rfl ⟨rfl, rfl, rfl⟩ rfl
  · have hone : s.sharers = 1 := by omega
    have hgt : ¬(s.sharers : ℤ) > 1 := by omega
    refine ⟨s.heap, ⟨tmps, .removing⟩, ?_, ?_, fun _ _ _ => rfl⟩
    · simp only [hl, threadStep, hget, ok_bind, hgt, if_false]
    · refine h.inherit hi hone (l := ⟨tmps, .removing⟩) rfl (fun _ _ => rfl) ⟨htable, ?_, hmutex⟩
        (fun x hx => Or.inr hx) (by simp [Local.owns])
      rw [hone] at hcount
      exact hcount

/-- The thread copies the table. -/
theorem Sound.copying (h : s.Sound a k m t) (hl : s.thread i = ⟨tmps, .copying⟩) :
    s.StepsSoundly a k m t i := by
  obtain ⟨rfl, rfl, rfl⟩ : tmps.fdTable = a ∧ tmps.shareCount = k ∧ tmps.fdMutex = m := h.ok hl
  obtain ⟨htable, hcount, hmutex, -⟩ := h.shared i (by rw [hl]; rfl)
  have hstep : threadStep s.heap (s.thread i) =
      .ok ({ s.heap with tables := s.heap.tables.alloc t },
        ⟨tmps, .decrementing s.heap.tables.next⟩) := by
    simp only [hl, threadStep, Heap.deepCopy_of_cell htable hmutex, ok_bind]
  refine h.stepsSoundly hstep (by rw [hl]; rfl) ⟨⟨rfl, rfl, rfl⟩, Arena.alloc_cell_self _ _⟩
    (fun x _ hx => ?_) (fun x hx => Or.inr ?_) fun b hb => ?_
  · cases x with
    | table b => exact Arena.alloc_cell_ne _ _ (Arena.ne_next_of_isSome hx)
    | count b => rfl
    | mutex b => rfl
  · obtain rfl := Set.mem_singleton_iff.mp hx
    intro halive
    exact Arena.ne_next_of_isSome halive rfl
  · by_cases hb' : b = s.heap.tables.next
    · exact Or.inl (by rw [hb']; rfl)
    · refine Or.inr ⟨?_, ?_⟩
      · rw [hl]
        exact Set.notMem_empty _
      · rw [← Arena.alloc_cell_ne s.heap.tables t hb']
        exact hb

/-- The thread with the copy gives up its share. -/
theorem Sound.decrementing (h : s.Sound a k m t) {fdCopy : ℕ}
    (hl : s.thread i = ⟨tmps, .decrementing fdCopy⟩) : s.StepsSoundly a k m t i := by
  obtain ⟨⟨rfl, rfl, rfl⟩, hcopy⟩ : (tmps.fdTable = a ∧ tmps.shareCount = k ∧ tmps.fdMutex = m) ∧
    s.heap.tables.cell fdCopy = some t := h.ok hl
  have hi : (s.thread i).pc.sharing = true := by rw [hl]; rfl
  obtain ⟨htable, -, hmutex, hunowned⟩ := h.shared i hi
  have hne : fdCopy ≠ tmps.fdTable := by
    rintro rfl
    refine hunowned i (.table tmps.fdTable) (by simp) ?_
    rw [hl]
    rfl
  refine h.giveUp (l := fun last => ⟨tmps, if last then .freeing fdCopy else .allocating fdCopy⟩)
    hi (by rw [hl]) (by rw [hl]; rfl) (fun last => by cases last <;> rfl) (fun _ => hcopy)
    (fun _ hzero => ⟨hcopy, htable, hne, hzero, hmutex⟩) ?_ ?_ (by simp [Local.owns])
  · rw [hl]
    exact fun _ => id
  · rw [hl]
    exact fun _ => id

/-- The thread that ends gives up its share. -/
theorem Sound.leaving (h : s.Sound a k m t) (hl : s.thread i = ⟨tmps, .leaving⟩) :
    s.StepsSoundly a k m t i := by
  obtain ⟨rfl, rfl, rfl⟩ : tmps.fdTable = a ∧ tmps.shareCount = k ∧ tmps.fdMutex = m := h.ok hl
  have hi : (s.thread i).pc.sharing = true := by rw [hl]; rfl
  obtain ⟨htable, -, hmutex, -⟩ := h.shared i hi
  exact h.giveUp (l := fun last => ⟨tmps, if last then .freeingTable else .gone⟩) hi
    (by rw [hl]) (by rw [hl]; rfl) (fun last => by cases last <;> rfl) (fun _ => trivial)
    (fun _ hzero => ⟨htable, hzero, hmutex⟩) (fun x hx => hx.elim) (fun x hx => Or.inr hx)
    (by simp [Local.owns])

/-- The last thread to share frees the table that it has a copy of. -/
theorem Sound.freeing (h : s.Sound a k m t) {fdCopy : ℕ}
    (hl : s.thread i = ⟨tmps, .freeing fdCopy⟩) : s.StepsSoundly a k m t i := by
  obtain ⟨hcopy, htable, hne, hcount, hmutex⟩ : Local.Ok a k m t s.heap ⟨tmps, .freeing fdCopy⟩ :=
    h.ok hl
  have hstep : threadStep s.heap (s.thread i) =
      .ok ({ s.heap with tables := s.heap.tables.free tmps.fdTable },
        ⟨tmps, .installing fdCopy⟩) := by
    simp only [hl, threadStep, Heap.fdTableFree_of_cell htable, ok_bind]
  refine h.changeCell hstep (by rw [hl]; rfl)
    ⟨(Arena.free_cell_ne _ hne).trans hcopy, hcount, hmutex⟩ (x := .table tmps.fdTable) ?_
    (fun y => .tables fun c => Arena.free_cell_ne _) (fun y hy => ?_) fun b hb hnot => ?_
  · rw [hl]
    simp [Local.owns]
  · rw [hl]
    rcases hy with rfl | rfl | rfl <;> simp [Local.owns]
  · rw [hl] at hb
    obtain rfl : b = tmps.fdTable := by
      simp only [Local.owns, Set.mem_insert_iff, Set.mem_singleton_iff, Cell.table.injEq,
        reduceCtorEq, or_false] at hb hnot
      exact hb.resolve_left hnot
    exact Arena.free_cell_self _ _

/-- Others share the table still: the thread gets a counter and a mutex of its own. -/
theorem Sound.allocating (h : s.Sound a k m t) {fdCopy : ℕ}
    (hl : s.thread i = ⟨tmps, .allocating fdCopy⟩) : s.StepsSoundly a k m t i := by
  have hcopy : Local.Ok a k m t s.heap ⟨tmps, .allocating fdCopy⟩ := h.ok hl
  have hstep : threadStep s.heap (s.thread i) =
      .ok (s.heap.allocShared,
        ⟨{ tmps with shareCount := s.heap.counts.next, fdMutex := s.heap.mutexes.next },
          .installing fdCopy⟩) := by
    rw [hl]
    rfl
  refine h.stepsSoundly hstep (by rw [hl]; rfl)
    ⟨hcopy, Arena.alloc_cell_self _ _, Arena.alloc_cell_self _ _⟩ (fun x _ hx => ?_)
    (fun x hx => ?_) fun b hb => ?_
  · cases x with
    | table b => rfl
    | count b => exact Arena.alloc_cell_ne _ _ (Arena.ne_next_of_isSome hx)
    | mutex b => exact Arena.alloc_cell_ne _ _ (Arena.ne_next_of_isSome hx)
  · rcases hx with rfl | rfl | rfl
    · exact Or.inl (by rw [hl]; rfl)
    · exact Or.inr fun halive => Arena.ne_next_of_isSome halive rfl
    · exact Or.inr fun halive => Arena.ne_next_of_isSome halive rfl
  · by_cases hb' : b = fdCopy
    · exact Or.inl (by rw [hb']; simp [Local.owns])
    · refine Or.inr ⟨?_, hb⟩
      rw [hl]
      simp [Local.owns, hb']

/-- The thread puts its copy into its record and counts itself. -/
theorem Sound.installing (h : s.Sound a k m t) {fdCopy : ℕ}
    (hl : s.thread i = ⟨tmps, .installing fdCopy⟩) : s.StepsSoundly a k m t i := by
  obtain ⟨hcopy, hcount, hmutex⟩ : Local.Ok a k m t s.heap ⟨tmps, .installing fdCopy⟩ :=
    h.ok hl
  have hstep : threadStep s.heap (s.thread i) =
      .ok ({ s.heap with counts := s.heap.counts.write tmps.shareCount 1 },
        ⟨{ tmps with fdTable := fdCopy }, .removing⟩) := by
    simp only [hl, threadStep, Heap.atomicInc_of_cell hcount, ok_bind, zero_add]
  refine h.changeCell hstep (by rw [hl]; rfl) ⟨hcopy, Arena.write_cell_self hcount, hmutex⟩
    (x := .count tmps.shareCount) ?_ (fun y => .counts fun c => Arena.write_cell_ne _ _)
    (by rw [hl]; exact fun _ => id) fun b hb hnot => ?_
  · rw [hl]
    simp [Local.owns]
  · rw [hl] at hb
    exact absurd hb hnot

/-- The thread removes the close-on-exec entries from a table of its own. -/
theorem Sound.removing (h : s.Sound a k m t) (hl : s.thread i = ⟨tmps, .removing⟩) :
    s.StepsSoundly a k m t i := by
  obtain ⟨htable, hcount, hmutex⟩ : Local.Ok a k m t s.heap ⟨tmps, .removing⟩ :=
    h.ok hl
  have hstep : threadStep s.heap (s.thread i) =
      .ok ({ s.heap with
        tables := s.heap.tables.write tmps.fdTable (fdTableRemoveCloexec t) },
        ⟨tmps, .done⟩) := by
    simp only [hl, threadStep, Heap.locked_of_cell htable hmutex, Except.map, ok_bind]
  refine h.changeCell hstep (by rw [hl]; rfl) ⟨Arena.write_cell_self htable, hcount, hmutex⟩
    (x := .table tmps.fdTable) ?_ (fun y => .tables fun c => Arena.write_cell_ne _ _)
    (by rw [hl]; exact fun _ => id) fun b hb hnot => ?_
  · rw [hl]
    simp [Local.owns]
  · rw [hl] at hb
    exact absurd hb hnot

/-- The last thread to share ends and frees the table. -/
theorem Sound.freeingTable (h : s.Sound a k m t) (hl : s.thread i = ⟨tmps, .freeingTable⟩) :
    s.StepsSoundly a k m t i := by
  obtain ⟨htable, hcount, hmutex⟩ : Local.Ok a k m t s.heap ⟨tmps, .freeingTable⟩ :=
    h.ok hl
  have hstep : threadStep s.heap (s.thread i) =
      .ok ({ s.heap with tables := s.heap.tables.free tmps.fdTable }, ⟨tmps, .freeingCount⟩) := by
    simp only [hl, threadStep, Heap.fdTableFree_of_cell htable, ok_bind]
  refine h.changeCell hstep (by rw [hl]; rfl) ⟨hcount, hmutex⟩ (x := .table tmps.fdTable) ?_
    (fun y => .tables fun c => Arena.free_cell_ne _) (by rw [hl]; exact fun _ => Or.inr)
    fun b hb _ => ?_
  · rw [hl]
    simp [Local.owns]
  · rw [hl] at hb
    obtain rfl : b = tmps.fdTable := by simpa [Local.owns] using hb
    exact Arena.free_cell_self _ _

/-- The last thread to share frees the counter. -/
theorem Sound.freeingCount (h : s.Sound a k m t) (hl : s.thread i = ⟨tmps, .freeingCount⟩) :
    s.StepsSoundly a k m t i := by
  obtain ⟨hcount, hmutex⟩ : Local.Ok a k m t s.heap ⟨tmps, .freeingCount⟩ :=
    h.ok hl
  have hstep : threadStep s.heap (s.thread i) =
      .ok ({ s.heap with counts := s.heap.counts.free tmps.shareCount },
        ⟨tmps, .freeingMutex⟩) := by
    simp only [hl, threadStep, Heap.freeCount_of_cell hcount, ok_bind]
  refine h.changeCell hstep (by rw [hl]; rfl) hmutex (x := .count tmps.shareCount) ?_
    (fun y => .counts fun c => Arena.free_cell_ne _) (by rw [hl]; exact fun _ => Or.inr)
    fun b hb _ => ?_
  · rw [hl]
    simp [Local.owns]
  · rw [hl] at hb
    simp [Local.owns] at hb

/-- The last thread to share frees the mutex. -/
theorem Sound.freeingMutex (h : s.Sound a k m t) (hl : s.thread i = ⟨tmps, .freeingMutex⟩) :
    s.StepsSoundly a k m t i := by
  have hmutex : Local.Ok a k m t s.heap ⟨tmps, .freeingMutex⟩ := h.ok hl
  have hstep : threadStep s.heap (s.thread i) =
      .ok ({ s.heap with mutexes := s.heap.mutexes.free tmps.fdMutex }, ⟨tmps, .gone⟩) := by
    simp only [hl, threadStep, Heap.freeMutex_of_cell hmutex, ok_bind]
  refine h.changeCell hstep (by rw [hl]; rfl) trivial (x := .mutex tmps.fdMutex) ?_
    (fun y => .mutexes fun c => Arena.free_cell_ne _) (fun y hy => hy.elim) fun b hb _ => ?_
  · rw [hl]
    simp [Local.owns]
  · rw [hl] at hb
    simp [Local.owns] at hb

/-- **Whatever step a thread takes next** succeeds and keeps the invariant. -/
theorem Sound.step (h : s.Sound a k m t) (i : ι) : s.StepsSoundly a k m t i := by
  rcases hl : s.thread i with ⟨tmps, pc⟩
  cases pc with
  | execve => exact h.execve hl
  | copying => exact h.copying hl
  | decrementing fdCopy => exact h.decrementing hl
  | freeing fdCopy => exact h.freeing hl
  | allocating fdCopy => exact h.allocating hl
  | installing fdCopy => exact h.installing hl
  | removing => exact h.removing hl
  | done => exact h.idle hl rfl rfl (h.ok hl) rfl
  | leaving => exact h.leaving hl
  | freeingTable => exact h.freeingTable hl
  | freeingCount => exact h.freeingCount hl
  | freeingMutex => exact h.freeingMutex hl
  | gone => exact h.idle hl rfl rfl trivial rfl

end Step

end Sharers

end Iotrace
