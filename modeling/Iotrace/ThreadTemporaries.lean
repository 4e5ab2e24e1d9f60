/-
# The tracer's memory and the record of each tracer thread

`src/thread_temporaries.c`.  A tracer thread keeps a `thread_tmps` record for its
tracee: scratch fields that carry data from a syscall's entry to its return, and
references to a descriptor table, to a counter of the threads that share the
table and to the mutex that guards it.  These three are allocated on the heap
and may be referenced by several records at once, so the model keeps them in
arenas, where a freed object is gone: accessing, locking or freeing it is
`useAfterFree`.

`locked` runs a function of `Iotrace.FdTable` on a table in memory, between the
`g_mutex_lock` and the `g_mutex_unlock` of its caller.
-/

import Iotrace.FdTable
import Iotrace.Library.Arena

namespace Iotrace

/-- The objects that `thread_tmps` records and thread start data refer to. -/
structure Heap where
  /-- `GHashTable *fd_table`. -/
  tables : Arena FdTable
  /-- `guint *share_count`. -/
  counts : Arena ℤ
  /-- `GMutex *fd_mutex`. -/
  mutexes : Arena Unit

/-- `thread_tmps`. -/
structure ThreadTmps where
  startTime : Timespec
  ptr : CLong
  intA : CInt
  intB : CInt
  intC : CInt
  filenameBuffer : ℕ → Byte
  fdTable : ℕ
  shareCount : ℕ
  fdMutex : ℕ

namespace Heap

/-- Lock `fdMutex`, read the table at `fdTable`. -/
def lockedTable (heap : Heap) (fdTable fdMutex : ℕ) : Except Abort FdTable :=
  match heap.mutexes.cell fdMutex, heap.tables.cell fdTable with
  | some _, some t => .ok t
  | _, _ => .error .useAfterFree

/-- Lock `fdMutex`, let `body` change the table at `fdTable`, unlock. -/
def locked (heap : Heap) (fdTable fdMutex : ℕ) (body : FdTable → Except Abort FdTable) :
    Except Abort Heap := do
  let t ← heap.lockedTable fdTable fdMutex
  let t ← body t
  .ok { heap with tables := heap.tables.write fdTable t }

/-- `g_atomic_int_get`. -/
def atomicGet (heap : Heap) (count : ℕ) : Except Abort ℤ :=
  match heap.counts.cell count with
  | some n => .ok n
  | none => .error .useAfterFree

/-- `g_atomic_int_inc`. -/
def atomicInc (heap : Heap) (count : ℕ) : Except Abort Heap := do
  let n ← heap.atomicGet count
  .ok { heap with counts := heap.counts.write count (n + 1) }

/-- `g_atomic_int_dec_and_test`: the result says whether the counter reached zero. -/
def atomicDecAndTest (heap : Heap) (count : ℕ) : Except Abort (Bool × Heap) := do
  let n ← heap.atomicGet count
  .ok (n - 1 == 0, { heap with counts := heap.counts.write count (n - 1) })

/-- `fd_table_free`. -/
def fdTableFree (heap : Heap) (fdTable : ℕ) : Except Abort Heap :=
  match heap.tables.cell fdTable with
  | some _ => .ok { heap with tables := heap.tables.free fdTable }
  | none => .error .useAfterFree

/-- `free` of a counter. -/
def freeCount (heap : Heap) (count : ℕ) : Except Abort Heap :=
  match heap.counts.cell count with
  | some _ => .ok { heap with counts := heap.counts.free count }
  | none => .error .useAfterFree

/-- `g_mutex_clear` and `free` of a mutex. -/
def freeMutex (heap : Heap) (mutex : ℕ) : Except Abort Heap :=
  match heap.mutexes.cell mutex with
  | some _ => .ok { heap with mutexes := heap.mutexes.free mutex }
  | none => .error .useAfterFree

/-- `malloc` of a counter that starts at zero, and of a mutex. -/
def allocShared (heap : Heap) : Heap :=
  { heap with counts := heap.counts.alloc 0, mutexes := heap.mutexes.alloc () }

/-- `fd_table_deep_copy`: the copy gets the address `heap.tables.next`. -/
def deepCopy (heap : Heap) (fdTable fdMutex : ℕ) : Except Abort Heap := do
  let t ← heap.lockedTable fdTable fdMutex
  .ok { heap with tables := heap.tables.alloc (fdTableDeepCopy t) }

theorem lockedTable_of_cell {heap : Heap} {fdTable fdMutex : ℕ} {t : FdTable}
    (ht : heap.tables.cell fdTable = some t) (hm : heap.mutexes.cell fdMutex = some ()) :
    heap.lockedTable fdTable fdMutex = .ok t := by
  rw [lockedTable, hm, ht]

/-- **A critical section on a live table** does to it what its body does. -/
theorem locked_of_cell {heap : Heap} {fdTable fdMutex : ℕ} {t : FdTable}
    (ht : heap.tables.cell fdTable = some t) (hm : heap.mutexes.cell fdMutex = some ())
    (body : FdTable → Except Abort FdTable) :
    heap.locked fdTable fdMutex body =
      (body t).map fun t' => { heap with tables := heap.tables.write fdTable t' } := by
  rw [locked, lockedTable_of_cell ht hm, ok_bind]
  cases body t <;> rfl

theorem atomicGet_of_cell {heap : Heap} {count : ℕ} {n : ℤ}
    (h : heap.counts.cell count = some n) : heap.atomicGet count = .ok n := by
  rw [atomicGet, h]

theorem atomicInc_of_cell {heap : Heap} {count : ℕ} {n : ℤ}
    (h : heap.counts.cell count = some n) :
    heap.atomicInc count = .ok { heap with counts := heap.counts.write count (n + 1) } := by
  rw [atomicInc, atomicGet_of_cell h, ok_bind]

theorem atomicDecAndTest_of_cell {heap : Heap} {count : ℕ} {n : ℤ}
    (h : heap.counts.cell count = some n) :
    heap.atomicDecAndTest count =
      .ok (n - 1 == 0, { heap with counts := heap.counts.write count (n - 1) }) := by
  rw [atomicDecAndTest, atomicGet_of_cell h, ok_bind]

theorem fdTableFree_of_cell {heap : Heap} {fdTable : ℕ} {t : FdTable}
    (h : heap.tables.cell fdTable = some t) :
    heap.fdTableFree fdTable = .ok { heap with tables := heap.tables.free fdTable } := by
  rw [fdTableFree, h]

theorem freeCount_of_cell {heap : Heap} {count : ℕ} {n : ℤ}
    (h : heap.counts.cell count = some n) :
    heap.freeCount count = .ok { heap with counts := heap.counts.free count } := by
  rw [freeCount, h]

theorem freeMutex_of_cell {heap : Heap} {mutex : ℕ} (h : heap.mutexes.cell mutex = some ()) :
    heap.freeMutex mutex = .ok { heap with mutexes := heap.mutexes.free mutex } := by
  rw [freeMutex, h]

theorem deepCopy_of_cell {heap : Heap} {fdTable fdMutex : ℕ} {t : FdTable}
    (ht : heap.tables.cell fdTable = some t) (hm : heap.mutexes.cell fdMutex = some ()) :
    heap.deepCopy fdTable fdMutex = .ok { heap with tables := heap.tables.alloc t } := by
  rw [deepCopy, lockedTable_of_cell ht hm, ok_bind, fdTableDeepCopy_eq]

end Heap

/-- The heap and `thread_tmps_table`, the records by the id of the tracee. -/
structure Process where
  heap : Heap
  threadTmpsTable : Finmap fun _ : CInt => ThreadTmps

/-- `free_single_thread_tmps`: give up the record's reference, and free what it
refers to if that was the last one. -/
def freeSingleThreadTmps (heap : Heap) (tmps : ThreadTmps) : Except Abort Heap := do
  let (last, heap) ← heap.atomicDecAndTest tmps.shareCount
  if last then
    let heap ← heap.fdTableFree tmps.fdTable
    let heap ← heap.freeCount tmps.shareCount
    heap.freeMutex tmps.fdMutex
  else .ok heap

/-- A share of a table that others use too is given up. -/
theorem freeSingleThreadTmps_of_shared {heap : Heap} {tmps : ThreadTmps} {n : ℤ}
    (hcount : heap.counts.cell tmps.shareCount = some n) (hn : 1 < n) :
    freeSingleThreadTmps heap tmps =
      .ok { heap with counts := heap.counts.write tmps.shareCount (n - 1) } := by
  have hlast : (n - 1 == 0) = false := by
    rw [beq_eq_false_iff_ne]
    omega
  rw [freeSingleThreadTmps, Heap.atomicDecAndTest_of_cell hcount, ok_bind]
  simp only [hlast, Bool.false_eq_true, if_false]

/-- The last share of a table is given up, and the table is freed. -/
theorem freeSingleThreadTmps_of_last {heap : Heap} {tmps : ThreadTmps} {t : FdTable}
    (ht : heap.tables.cell tmps.fdTable = some t) (hm : heap.mutexes.cell tmps.fdMutex = some ())
    (hcount : heap.counts.cell tmps.shareCount = some 1) :
    freeSingleThreadTmps heap tmps =
      .ok ⟨heap.tables.free tmps.fdTable,
        (heap.counts.write tmps.shareCount 0).free tmps.shareCount,
        heap.mutexes.free tmps.fdMutex⟩ := by
  have hcell : (heap.counts.write tmps.shareCount 0).cell tmps.shareCount = some 0 :=
    Arena.write_cell_self hcount
  have htable : Heap.fdTableFree ⟨heap.tables, heap.counts.write tmps.shareCount 0, heap.mutexes⟩
      tmps.fdTable = .ok ⟨heap.tables.free tmps.fdTable, _, _⟩ := Heap.fdTableFree_of_cell ht
  have hcounter : Heap.freeCount ⟨heap.tables.free tmps.fdTable,
      heap.counts.write tmps.shareCount 0, heap.mutexes⟩ tmps.shareCount = .ok ⟨_, _, _⟩ :=
    Heap.freeCount_of_cell hcell
  rw [freeSingleThreadTmps, Heap.atomicDecAndTest_of_cell hcount, ok_bind]
  simp only [Int.sub_self, beq_self_eq_true, if_true, htable, ok_bind, hcounter]
  exact Heap.freeMutex_of_cell hm

/-- `g_hash_table_insert` on `thread_tmps_table`: a record that is replaced is freed. -/
def threadTmpsTableInsert (p : Process) (thread : CInt) (tmps : ThreadTmps) :
    Except Abort Process := do
  let heap ← match p.threadTmpsTable.lookup thread with
    | some old => freeSingleThreadTmps p.heap old
    | none => .ok p.heap
  .ok ⟨heap, p.threadTmpsTable.insert thread tmps⟩

/-- `thread_tmps_insert`.  A new record shares a table if a counter and a mutex
are given, and gets its own ones otherwise; `block` is what `malloc` left in the
fields that are not set. -/
def threadTmpsInsert (p : Process) (thread : CInt) (block : ThreadTmps) (fdTable : ℕ)
    (shareCount sharedFdMutex : Option ℕ) : Except Abort Process :=
  match shareCount, sharedFdMutex with
  | some count, some mutex => do
    let heap ← p.heap.atomicInc count
    threadTmpsTableInsert { p with heap } thread
      { block with fdTable, shareCount := count, fdMutex := mutex }
  | _, _ => do
    let heap ← p.heap.allocShared.atomicInc p.heap.counts.next
    threadTmpsTableInsert { p with heap } thread
      { block with fdTable, shareCount := p.heap.counts.next, fdMutex := p.heap.mutexes.next }

/-- `thread_tmps_lookup`. -/
def threadTmpsLookup (p : Process) (thread : CInt) : Option ThreadTmps :=
  p.threadTmpsTable.lookup thread

/-- `thread_tmps_remove`: a record that is found is freed. -/
def threadTmpsRemove (p : Process) (thread : CInt) : Except Abort (Bool × Process) :=
  match p.threadTmpsTable.lookup thread with
  | some tmps => do
    let heap ← freeSingleThreadTmps p.heap tmps
    .ok (true, ⟨heap, p.threadTmpsTable.erase thread⟩)
  | none => .ok (false, p)

end Iotrace
