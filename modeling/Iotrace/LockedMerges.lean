/-
# Merging under the mutexes

At its end a tracer thread merges its two tables into the main ones, each merge a loop
over the entries of its own table, inside a lock of the mutex of the main table.  When
many threads end, the iterations of their loops may come in any order that the mutexes
allow, and the merges into one main table in another order than those into the other.

`merges_atomic` says that this is no worse than merging the threads' tables as a whole,
one thread after the other in any order: what `Trace.step` does at the end of a thread.
-/

import Iotrace.Library.CriticalSections
import Iotrace.HandledTrace

namespace Iotrace

open FiniteMap Mutex Accumulation Weights

/-- The main tables, each of which has a mutex. -/
inductive MainTable where
  /-- `main_file_stat_table`. -/
  | fileStat
  /-- `main_syscall_table`. -/
  | syscalls
  deriving DecidableEq

/-- The type of a main table. -/
abbrev MainTable.Table : MainTable → Type
  | fileStat => FileStatTable
  | syscalls => SyscallTable

/-- The type of its entries. -/
abbrev MainTable.Entry : MainTable → Type
  | fileStat => Sigma fun _ : CString => FileStat
  | syscalls => Sigma fun _ : CInt => SyscallStat

/-- The loop body of `file_state_merge` or of `syscall_stat_merge`. -/
def MainTable.mergeEntry : (m : MainTable) → m.Table → m.Entry → m.Table
  | fileStat, main, e => fileStateMergeEntry main e.1 e.2
  | syscalls, main, e => syscallStatMergeEntry main e.1 e.2

/-- The main tables. -/
def Statistics.table (main : Statistics) : (m : MainTable) → m.Table
  | .fileStat => main.fileStatTable
  | .syscalls => main.syscallTable

/-- What `start_tracer` does with the main tables after its loop, if it visits its own
tables in the given orders. -/
def mergeProgram {stats : Statistics} (files : Enumeration stats.fileStatTable)
    (syscalls : Enumeration stats.syscallTable) : List (Critical MainTable.Entry) :=
  [⟨.fileStat, files.entries⟩, ⟨.syscalls, syscalls.entries⟩]

/-- What a thread has recorded. -/
def Statistics.recorded (files : List FileEvent) (syscalls : List SyscallEvent) : Statistics :=
  ⟨files.foldl recordFile fileStatCreate, syscalls.foldl recordSyscall syscallStatCreate⟩

section Merges

variable {ι : Type} {stats : ι → Statistics}

/-- The iterations over the entries of whole tables are merges. -/
theorem foldl_mergeEntry_fileStat (files : ∀ i, Enumeration (stats i).fileStatTable)
    (order : List ι) (main : FileStatTable) :
    (order.flatMap fun i => (files i).entries).foldl (MainTable.mergeEntry .fileStat) main =
      order.foldl (fun main i => fileStateMerge main (stats i).fileStatTable) main := by
  rw [List.foldl_flatMap]
  refine congrFun (congrArg₂ List.foldl ?_ rfl) order
  funext main i
  exact ((files i).walk_eq fileStateMergeEntry_exchangeable main).symm

theorem foldl_mergeEntry_syscalls (syscalls : ∀ i, Enumeration (stats i).syscallTable)
    (order : List ι) (main : SyscallTable) :
    (order.flatMap fun i => (syscalls i).entries).foldl (MainTable.mergeEntry .syscalls) main =
      order.foldl (fun main i => syscallStatMerge main (stats i).syscallTable) main := by
  rw [List.foldl_flatMap]
  refine congrFun (congrArg₂ List.foldl ?_ rfl) order
  funext main i
  exact ((syscalls i).walk_eq syscallStatMergeEntry_exchangeable main).symm

/-- A merge of statistics is one of each table. -/
theorem foldl_merge (order : List ι) (main : Statistics) :
    order.foldl (fun main i => main.merge (stats i)) main =
      ⟨order.foldl (fun main i => fileStateMerge main (stats i).fileStatTable) main.fileStatTable,
        order.foldl (fun main i => syscallStatMerge main (stats i).syscallTable)
          main.syscallTable⟩ := by
  induction order generalizing main with
  | nil => rfl
  | cons i order ih => exact ih _

end Merges

/-- **Merges under the mutexes are atomic.**  Let any threads merge what they have recorded,
their steps interleaved in any way that the mutexes allow, down to single iterations of
the loops, and whatever the orders are in which they visit their tables.  The results that
were recorded are those that the kernel documents (`InRange`).  No two threads are ever in
the loop over one main table, they have no more steps than their sections have, and as long
as one is not done, some thread can go on.  When none can, all are done, and the main tables
are those of merging the threads one after the other, in any order. -/
theorem merges_atomic {ι : Type} [DecidableEq ι] [Fintype ι] {fileEvents : ι → List FileEvent}
    (hrange : ∀ i, ∀ e ∈ fileEvents i, e.InRange) (syscallEvents : ι → List SyscallEvent)
    (files : ∀ i, Enumeration (Statistics.recorded (fileEvents i) (syscallEvents i)).fileStatTable)
    (syscalls : ∀ i, Enumeration
      (Statistics.recorded (fileEvents i) (syscallEvents i)).syscallTable)
    {l : List ι} {s : Mutex.System ι MainTable.Table MainTable.Entry}
    (hrun : l.foldlM (Mutex.step MainTable.mergeEntry)
      (Mutex.start Statistics.create.table fun i => mergeProgram (files i) (syscalls i)) = .ok s) :
    (∀ i j m rest todo rest' todo', s.threads i = .inside m rest todo →
        s.threads j = .inside m rest' todo' → i = j) ∧
      l.length ≤ ∑ i, ((files i).entries.length + (syscalls i).entries.length + 4) ∧
      ((∀ i, ∃ e, Mutex.step MainTable.mergeEntry s i = .error e) →
        (∀ i, s.threads i = .outside []) ∧
          ∀ order : List ι, order.Nodup → (∀ i, i ∈ order) →
            s.value = (order.foldl (fun main i =>
              Statistics.merge main (Statistics.recorded (fileEvents i) (syscallEvents i)))
                Statistics.create).table) := by
  have hstart : Serial MainTable.mergeEntry _ _ (Mutex.start Statistics.create.table fun i =>
    mergeProgram (files i) (syscalls i)) [] fun _ => [] := start_serial _ _
  obtain ⟨past, part, h⟩ := hstart.run hrun
  refine ⟨h.alone, ?_, fun hstuck => ?_⟩
  · have hsteps : (Mutex.start Statistics.create.table fun i =>
        mergeProgram (files i) (syscalls i)).remaining =
          ∑ i, ((files i).entries.length + (syscalls i).entries.length + 4) := by
      refine Finset.sum_congr rfl fun i _ => ?_
      simp only [Mutex.start, Thread.remaining, mergeProgram, total_cons, total_nil, Critical.steps]
      omega
    rw [← hsteps, ← run_remaining hrun]
    exact Nat.le_add_right _ _
  · have hend := h.progress hstuck
    obtain ⟨hpast, hvalue⟩ := h.ended hend
    refine ⟨hend, fun order hnodup hall => ?_⟩
    have hperm : ∀ {order' : List ι}, order'.Nodup → (∀ i, i ∈ order') → order'.Perm order :=
      fun hnodup' hall' => (List.perm_ext_iff_of_nodup hnodup' hnodup).mpr fun i =>
        iff_of_true (hall' i) (hall i)
    rw [foldl_merge]
    funext m
    cases m with
    | fileStat =>
        obtain ⟨order', hnodup', hall', hactions⟩ := exists_order (m := .fileStat) hpast
          fun i => ⟨⟨.fileStat, (files i).entries⟩, rfl, Critical.on_self _ _⟩
        rw [hvalue, hactions]
        refine (foldl_mergeEntry_fileStat files order' _).trans ?_
        exact fileTables_lawful.foldl_merge_perm (hperm hnodup' hall') fun i e he j e' he' =>
          fileTables_commute (hrange i e he) (hrange j e' he')
    | syscalls =>
        obtain ⟨order', hnodup', hall', hactions⟩ := exists_order (m := .syscalls) hpast
          fun i => ⟨⟨.syscalls, (syscalls i).entries⟩, rfl, Critical.on_self _ _⟩
        rw [hvalue, hactions]
        refine (foldl_mergeEntry_syscalls syscalls order' _).trans ?_
        exact syscallTables_lawful.foldl_merge_perm (hperm hnodup' hall') fun i e _ j e' _ =>
          syscallTables_commute e e'

/-- One of two threads has read from a socket. -/
def oneReads : Bool → List FileEvent
  | false => []
  | true => [.incrRead SOCKET 30 16]

/-- The tables of files are visited in these orders. -/
def oneReadsFiles : ∀ i, Enumeration
    (Statistics.recorded (oneReads i) [⟨39, 2⟩]).fileStatTable
  | false => ⟨[⟨cstr "NULL", initFileStat⟩], rfl⟩
  | true => ⟨[⟨SOCKET, initFileStat.record (.incrRead SOCKET 30 16)⟩,
      ⟨cstr "NULL", initFileStat⟩], rfl⟩

/-- Both threads have called `getpid`. -/
def oneReadsSyscalls (i : Bool) : Enumeration
    (Statistics.recorded (oneReads i) [⟨39, 2⟩]).syscallTable :=
  ⟨[⟨39, ⟨1, 2⟩⟩], rfl⟩

/-- While one thread is at the files, the other one is at the syscalls. -/
theorem merges_atomic_two : ∃ s, [false, false, false, true, false, true, false, true, false, true,
      true, true, true].foldlM (Mutex.step MainTable.mergeEntry)
        (Mutex.start Statistics.create.table fun i => mergeProgram (oneReadsFiles i)
          (oneReadsSyscalls i)) = .ok s ∧
    s.value = ([true, false].foldl (fun main i =>
      Statistics.merge main (Statistics.recorded (oneReads i) [⟨39, 2⟩]))
        Statistics.create).table := by
  obtain ⟨s, hrun⟩ : ∃ s, [false, false, false, true, false, true, false, true, false, true, true,
      true, true].foldlM (Mutex.step MainTable.mergeEntry)
        (Mutex.start Statistics.create.table fun i => mergeProgram (oneReadsFiles i)
          (oneReadsSyscalls i)) = .ok s := ⟨_, rfl⟩
  have hrange : ∀ i, ∀ e ∈ oneReads i, e.InRange := by
    intro i e he
    cases i with
    | false => exact absurd he List.not_mem_nil
    | true =>
        obtain rfl := List.mem_singleton.mp he
        exact ⟨by decide, by decide⟩
  obtain ⟨-, -, hend⟩ :=
    merges_atomic hrange (fun _ => [⟨39, 2⟩]) oneReadsFiles oneReadsSyscalls hrun
  refine ⟨s, hrun, (hend fun i => ?_).2 [true, false] (by decide) (by decide)⟩
  obtain rfl := Except.ok.inj hrun
  cases i with
  | false => exact ⟨.finished, rfl⟩
  | true => exact ⟨.finished, rfl⟩

end Iotrace
