/-
# Giving up a share, in atomic steps

`handle_execve_return` and `free_single_thread_tmps` as the atomic steps that they
consist of (`threadStep`), and the threads of tracees that share one table taking
these steps in any order (`Sharers.step`).  In a row the steps are the functions of
the source: `threadSteps_execve`, `threadSteps_leaving`,
`threadTmpsRemove_eq_threadSteps`.

Between the moment at which a thread reads the counter and the moment at which it
decrements it, others may leave, so that it turns out to be the last one: then it
frees the table and goes on with the old counter and the old mutex.
(`thread_tmps_remove` holds `threads_tmps_mutex` while it frees a record, which rules
some of the orders out that are covered here.)
-/

import Iotrace.SyscallHandler
import Iotrace.Library.Runs
import Mathlib.Logic.Function.Basic

namespace Iotrace

open Runs

/-! ### The atomic steps -/

/-- Where a thread stands, in `handle_execve_return` with the copy that it has made,
or in `free_single_thread_tmps`. -/
inductive Pc where
  /-- `g_atomic_int_get`. -/
  | execve
  /-- `fd_table_deep_copy`. -/
  | copying
  /-- `g_atomic_int_dec_and_test`. -/
  | decrementing (fdCopy : ℕ)
  /-- All others have left: `fd_table_free`. -/
  | freeing (fdCopy : ℕ)
  /-- There are others: `malloc` of a counter and a mutex. -/
  | allocating (fdCopy : ℕ)
  /-- `tmps->fd_table = fd_copy` and `g_atomic_int_inc`. -/
  | installing (fdCopy : ℕ)
  /-- `fd_table_remove_cloexec`. -/
  | removing
  /-- The thread has a table of its own. -/
  | done
  /-- `g_atomic_int_dec_and_test` of `free_single_thread_tmps`. -/
  | leaving
  /-- `fd_table_free`. -/
  | freeingTable
  /-- `free` of the counter. -/
  | freeingCount
  /-- `g_mutex_clear` and `free` of the mutex. -/
  | freeingMutex
  /-- The record is gone. -/
  | gone
  deriving DecidableEq

/-- A thread: its record and where it stands. -/
structure Local where
  tmps : ThreadTmps
  pc : Pc

/-- The next atomic step of a thread. -/
def threadStep (heap : Heap) (l : Local) : Except Abort (Heap × Local) :=
  match l.pc with
  | .execve => do
    let n ← heap.atomicGet l.tmps.shareCount
    .ok (heap, { l with pc := if n > 1 then .copying else .removing })
  | .copying => do
    let fdCopy := heap.tables.next
    let heap ← heap.deepCopy l.tmps.fdTable l.tmps.fdMutex
    .ok (heap, { l with pc := .decrementing fdCopy })
  | .decrementing fdCopy => do
    let (last, heap) ← heap.atomicDecAndTest l.tmps.shareCount
    .ok (heap, { l with pc := if last then .freeing fdCopy else .allocating fdCopy })
  | .freeing fdCopy => do
    let heap ← heap.fdTableFree l.tmps.fdTable
    .ok (heap, { l with pc := .installing fdCopy })
  | .allocating fdCopy =>
    let tmps := { l.tmps with shareCount := heap.counts.next, fdMutex := heap.mutexes.next }
    .ok (heap.allocShared, ⟨tmps, .installing fdCopy⟩)
  | .installing fdCopy => do
    let heap ← heap.atomicInc l.tmps.shareCount
    .ok (heap, ⟨{ l.tmps with fdTable := fdCopy }, .removing⟩)
  | .removing => do
    let heap ← heap.locked l.tmps.fdTable l.tmps.fdMutex fun t => .ok (fdTableRemoveCloexec t)
    .ok (heap, { l with pc := .done })
  | .leaving => do
    let (last, heap) ← heap.atomicDecAndTest l.tmps.shareCount
    .ok (heap, { l with pc := if last then .freeingTable else .gone })
  | .freeingTable => do
    let heap ← heap.fdTableFree l.tmps.fdTable
    .ok (heap, { l with pc := .freeingCount })
  | .freeingCount => do
    let heap ← heap.freeCount l.tmps.shareCount
    .ok (heap, { l with pc := .freeingMutex })
  | .freeingMutex => do
    let heap ← heap.freeMutex l.tmps.fdMutex
    .ok (heap, { l with pc := .gone })
  | .done | .gone => .ok (heap, l)

/-- Steps of one thread in a row. -/
def threadSteps : ℕ → Heap × Local → Except Abort (Heap × Local)
  | 0, p => .ok p
  | n + 1, p => threadStep p.1 p.2 >>= threadSteps n

/-- A thread that has finished stays where it is. -/
theorem threadSteps_of_finished (n : ℕ) (heap : Heap) {l : Local}
    (h : l.pc = .done ∨ l.pc = .gone) : threadSteps n (heap, l) = .ok (heap, l) := by
  induction n with
  | zero => rfl
  | succ n ih =>
      have hstep : threadStep heap l = .ok (heap, l) := by
        rcases h with h | h <;> simp only [threadStep, h]
      simp only [threadSteps, hstep, ok_bind, ih]

/-- A row of steps that starts with a computation that may abort. -/
theorem threadSteps_succ {α : Type} {n : ℕ} {heap : Heap} {l : Local} {x : Except Abort α}
    {f : α → Heap × Local} (h : threadStep heap l = x >>= fun a => .ok (f a)) :
    threadSteps (n + 1) (heap, l) = x >>= fun a => threadSteps n (f a) := by
  simp only [threadSteps, h, bind_assoc, ok_bind]

/-- The last step of `handle_execve_return`. -/
theorem threadSteps_removing (n : ℕ) (heap : Heap) (tmps : ThreadTmps) :
    threadSteps (n + 1) (heap, ⟨tmps, .removing⟩) =
      (heap.locked tmps.fdTable tmps.fdMutex (fun t => .ok (fdTableRemoveCloexec t)) >>=
        fun heap => Except.ok (heap, tmps)).map fun r => (r.1, ⟨r.2, .done⟩) := by
  rw [threadSteps_succ rfl]
  refine bind_map_congr fun heap => ?_
  exact threadSteps_of_finished n heap (Or.inl rfl)

/-- **The steps in a row are `handle_execve_return`.** -/
theorem threadSteps_execve (heap : Heap) (tmps : ThreadTmps) :
    threadSteps 6 (heap, ⟨tmps, .execve⟩) =
      (handleExecveReturn heap tmps).map fun r => (r.1, ⟨r.2, .done⟩) := by
  rw [threadSteps_succ rfl, handleExecveReturn]
  refine bind_map_congr fun n => ?_
  split_ifs with hn
  · rw [threadSteps_succ rfl]
    refine bind_map_congr fun heap₁ => ?_
    rw [threadSteps_succ (f := fun r : Bool × Heap => (r.2,
      ⟨tmps, if r.1 then .freeing heap.tables.next else .allocating heap.tables.next⟩)) rfl]
    refine bind_map_congr fun r => ?_
    obtain ⟨last, heap₂⟩ := r
    cases last with
    | true =>
        rw [threadSteps_succ rfl]
        refine bind_map_congr fun heap₃ => ?_
        rw [threadSteps_succ rfl]
        refine bind_map_congr fun heap₄ => ?_
        exact threadSteps_removing 0 _ _
    | false =>
        show threadSteps 2 (heap₂.allocShared, ⟨_, .installing heap.tables.next⟩) = _
        rw [threadSteps_succ rfl]
        refine bind_map_congr fun heap₃ => ?_
        exact threadSteps_removing 0 _ _
  · exact threadSteps_removing 4 _ _

/-- **The steps in a row are `free_single_thread_tmps`.** -/
theorem threadSteps_leaving (heap : Heap) (tmps : ThreadTmps) :
    threadSteps 4 (heap, ⟨tmps, .leaving⟩) =
      (freeSingleThreadTmps heap tmps).map fun heap => (heap, ⟨tmps, .gone⟩) := by
  rw [freeSingleThreadTmps, threadSteps_succ (f := fun r : Bool × Heap =>
    (r.2, ⟨tmps, if r.1 then .freeingTable else .gone⟩)) rfl]
  refine bind_map_congr fun r => ?_
  obtain ⟨last, heap₁⟩ := r
  cases last with
  | false => exact threadSteps_of_finished 3 heap₁ (l := ⟨tmps, .gone⟩) (Or.inr rfl)
  | true =>
      rw [threadSteps_succ rfl]
      refine bind_map_congr fun heap₂ => ?_
      rw [threadSteps_succ rfl]
      refine bind_map_congr fun heap₃ => ?_
      rw [threadSteps_succ rfl]
      cases heap₃.freeMutex tmps.fdMutex <;> rfl

/-- `thread_tmps_remove` takes these steps for the record that it finds. -/
theorem threadTmpsRemove_eq_threadSteps {p : Process} {thread : CInt} {tmps : ThreadTmps}
    (h : p.threadTmpsTable.lookup thread = some tmps) :
    threadTmpsRemove p thread =
      (threadSteps 4 (p.heap, ⟨tmps, .leaving⟩)).map fun r =>
        (true, ⟨r.1, p.threadTmpsTable.erase thread⟩) := by
  have hremove : threadTmpsRemove p thread = freeSingleThreadTmps p.heap tmps >>= fun heap =>
      Except.ok (true, ⟨heap, p.threadTmpsTable.erase thread⟩) := by
    rw [threadTmpsRemove, h]
  rw [hremove, threadSteps_leaving]
  cases freeSingleThreadTmps p.heap tmps <;> rfl

/-! ### Threads in any order -/

/-- The threads `ι`. -/
structure Sharers (ι : Type) where
  heap : Heap
  thread : ι → Local

/-- One atomic step of one thread. -/
def Sharers.step {ι : Type} [DecidableEq ι] (s : Sharers ι) (i : ι) :
    Except Abort (Sharers ι) := do
  let (heap, l) ← threadStep s.heap (s.thread i)
  .ok ⟨heap, Function.update s.thread i l⟩

/-- The thread has its share of the table still, and the counter counts it. -/
def Pc.sharing : Pc → Bool
  | .execve | .copying | .decrementing _ | .leaving => true
  | _ => false

/-- The number of steps that the thread still has to take, at most. -/
def Pc.remaining : Pc → ℕ
  | .execve => 6
  | .copying => 5
  | .decrementing _ | .leaving => 4
  | .freeing _ | .allocating _ | .freeingTable => 3
  | .installing _ | .freeingCount => 2
  | .removing | .freeingMutex => 1
  | .done | .gone => 0

end Iotrace
