/-
# Giving up a shared table

The threads of all tracees that share one table each run `handle_execve_return` or
`free_single_thread_tmps`, once, their atomic steps in any order.  That no two threads
own the same cell is the reason why nothing is freed twice or used afterwards, and why
no thread changes a table that another one still uses (`unshare_isolated`).
-/

import Iotrace.Sharers

namespace Iotrace

open Runs Ownership

namespace Sharers

variable {ι : Type}

/-! ### Every run -/

/-- All threads have a table of their own or are gone. -/
def Finished (s : Sharers ι) : Prop := ∀ i, (s.thread i).pc = .done ∨ (s.thread i).pc = .gone

/-- Thread `i` has a table of its own, with the contents of `t` but for the entries
marked close-on-exec, a counter of its own that is 1, and a mutex of its own. -/
structure Private (s : Sharers ι) (t : FdTable) (i : ι) : Prop where
  table : s.heap.tables.cell (s.thread i).tmps.fdTable = some (fdTableRemoveCloexec t)
  count : s.heap.counts.cell (s.thread i).tmps.shareCount = some 1
  mutex : s.heap.mutexes.cell (s.thread i).tmps.fdMutex = some ()
  own : ∀ j ≠ i, (s.thread j).pc = .done →
    (s.thread j).tmps.fdTable ≠ (s.thread i).tmps.fdTable ∧
    (s.thread j).tmps.shareCount ≠ (s.thread i).tmps.shareCount ∧
    (s.thread j).tmps.fdMutex ≠ (s.thread i).tmps.fdMutex

/-- What holds of a state: the table keeps its contents `t` while a thread shares it;
a thread that is done has a table of its own; and when all have finished, the shared
table has been freed, or one of them has it. -/
structure Unshared (s : Sharers ι) (a : ℕ) (t : FdTable) : Prop where
  contents : ∀ i, (s.thread i).pc.sharing = true → s.heap.tables.cell a = some t
  surviving : ∀ i, (s.thread i).pc = .done → s.Private t i
  released : s.Finished → (s.heap.tables.cell a).isSome →
    ∃ i, (s.thread i).pc = .done ∧ (s.thread i).tmps.fdTable = a

/-- What a thread that is done owns. -/
theorem owns_of_done {s : Sharers ι} {i : ι} (h : (s.thread i).pc = .done) :
    (s.thread i).owns = {.table (s.thread i).tmps.fdTable, .count (s.thread i).tmps.shareCount,
      .mutex (s.thread i).tmps.fdMutex} := by
  simp only [Local.owns, h]

variable [Fintype ι] {s : Sharers ι} {a k m : ℕ} {t : FdTable}

/-- The threads that are done own their cells, and no cell has two owners. -/
theorem Sound.private (h : s.Sound a k m t) {i : ι} (hi : (s.thread i).pc = .done) :
    s.Private t i := by
  have hok : s.heap.tables.cell (s.thread i).tmps.fdTable = some (fdTableRemoveCloexec t) ∧
      s.heap.counts.cell (s.thread i).tmps.shareCount = some 1 ∧
      s.heap.mutexes.cell (s.thread i).tmps.fdMutex = some () := by
    have hok := h.separated.ok i
    simpa only [Local.Ok, hi] using hok
  obtain ⟨htable, hcount, hmutex⟩ := hok
  refine ⟨htable, hcount, hmutex, fun j hj hdone => ?_⟩
  have hnot : ∀ x ∈ (s.thread i).owns, x ∉ (s.thread j).owns := fun x hx =>
    h.separated.not_mem hj hx
  simp only [owns_of_done hi, owns_of_done hdone] at hnot
  refine ⟨fun he => ?_, fun he => ?_, fun he => ?_⟩
  · exact hnot (.table (s.thread i).tmps.fdTable) (by simp) (by simp [he])
  · exact hnot (.count (s.thread i).tmps.shareCount) (by simp) (by simp [he])
  · exact hnot (.mutex (s.thread i).tmps.fdMutex) (by simp) (by simp [he])

theorem Sound.unshared (h : s.Sound a k m t) : s.Unshared a t := by
  refine ⟨fun i hi => (h.shared i hi).table, fun i hi => h.private hi, fun hfin hsome => ?_⟩
  obtain ⟨i, hi⟩ := h.kept hsome
  rcases hfin i with hpc | hpc
  · refine ⟨i, hpc, ?_⟩
    rw [owns_of_done hpc, hpc] at hi
    rcases hi with hi | hi
    · cases hi
    · obtain rfl : a = (s.thread i).tmps.fdTable := by simpa using hi
      rfl
  · rw [Local.owns, hpc] at hi
    rcases hi with hi | hi
    · cases hi
    · exact hi.elim

variable [DecidableEq ι]

end Sharers

end Iotrace
