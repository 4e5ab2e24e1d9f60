/-
# The names of syscalls

`src/syscall_names.h` declares an array of `NAMES_LENGTH` names, in which the gaps
between the numbers of the ABI are filled with `UNDEFINED_SYSCALL`.  When the results
are written, `builder_add_syscall_stats` and `syscall_stat_print_all` walk over the
main table of syscalls and take the key of every entry as an index of this array.

The keys are the numbers that the tracees put into `ORIG_RAX`, and nothing on the way
from there compares them with `NAMES_LENGTH`.  All accesses are in range if and only
if no tracee completes a syscall with a number outside of the array
(`names_in_bounds_iff`); a `syscall(1000)`, which returns `-ENOSYS`, is enough to
leave it (`name_out_of_bounds`).
-/

import Iotrace.Recorded

namespace Iotrace

/-- `NAMES_LENGTH`. -/
def NAMES_LENGTH : ℕ := 547

/-- A valid index of `syscall_names`. -/
def ValidName (key : CInt) : Prop := 0 ≤ key.toInt ∧ key.toInt < NAMES_LENGTH

instance (key : CInt) : Decidable (ValidName key) := inferInstanceAs (Decidable (_ ∧ _))

theorem ValidName.toNat_lt {key : CInt} (h : ValidName key) : key.toInt.toNat < NAMES_LENGTH := by
  obtain ⟨hlow, hhigh⟩ := h
  omega

/-- `syscall_names[key]`, `none` outside of the array. -/
def syscallName (names : Fin NAMES_LENGTH → CString) (key : CInt) : Option CString :=
  if h : ValidName key then some (names ⟨key.toInt.toNat, h.toNat_lt⟩) else none

/-- What `builder_add_syscall_stats` and `syscall_stat_print_all` write for an entry. -/
structure SyscallRow where
  syscall : CString
  count : CULongLong
  totalNs : CULongLong

/-- The loop body of both functions. -/
def syscallRow (names : Fin NAMES_LENGTH → CString) (key : CInt) (tmp : SyscallStat) :
    Option SyscallRow :=
  (syscallName names key).map fun syscall => ⟨syscall, tmp.count, tmp.totalNs⟩

/-- The rows that are written for a table, `none` where the name is read outside of
the array. -/
def syscallRows (names : Fin NAMES_LENGTH → CString) (table : SyscallTable) :
    Multiset (Option SyscallRow) :=
  table.entries.map fun entry => syscallRow names entry.1 entry.2

/-- The main table, after tracer threads have merged these tables one after another. -/
def mainSyscallTable (tables : List SyscallTable) : SyscallTable :=
  tables.foldl syscallStatMerge syscallStatCreate

/-- A completed syscall, handled with the heap as the other threads have left it. -/
def handleAmong (s : Tracer) (e : Heap × Completed) : Except Abort Tracer :=
  handleCompleted { s with heap := e.1 } e.2

/-! ### The keys of the tables -/

/-- A key of the main table comes from one of the tables merged into it. -/
theorem mem_foldl_merge {tables : List SyscallTable} {main : SyscallTable} {key : CInt} :
    key ∈ tables.foldl syscallStatMerge main ↔ key ∈ main ∨ ∃ table ∈ tables, key ∈ table := by
  induction tables generalizing main with
  | nil => exact ⟨Or.inl, fun h => h.resolve_right fun ⟨_, ht, _⟩ => List.not_mem_nil ht⟩
  | cons table tables ih =>
      have hone : key ∈ syscallTables.merge main table ↔ key ∈ main ∨ key ∈ table := by
        rw [syscallTables_eq]
        exact Cell.mem_table_merge
      rw [List.foldl_cons, ih, List.exists_mem_cons_iff, ← or_assoc]
      exact or_congr_left hone

/-- The keys of the main table are those of the threads' tables. -/
theorem mem_mainSyscallTable {tables : List SyscallTable} {key : CInt} :
    key ∈ mainSyscallTable tables ↔ ∃ table ∈ tables, key ∈ table := by
  rw [mainSyscallTable, mem_foldl_merge]
  exact or_iff_right fun h => Finmap.notMem_empty h

/-- The keys of a thread's table are the numbers of its unconsidered syscalls. -/
theorem mem_syscallTable_of_run {s s' : Tracer} {l : List (Heap × Completed)}
    (h : l.foldlM handleAmong s = .ok s') {key : CInt} :
    key ∈ s'.syscallTable ↔
      key ∈ s.syscallTable ∨ ∃ e ∈ l, e.2.unconsidered = true ∧ e.2.sc = key := by
  induction l generalizing s with
  | nil =>
      obtain rfl := Except.ok.inj h
      exact ⟨Or.inl, fun h => h.resolve_right fun ⟨_, he, _⟩ => List.not_mem_nil he⟩
  | cons e l ih =>
      obtain ⟨s₁, hstep, hrun⟩ := Runs.foldlM_cons_ok.mp h
      obtain ⟨file, -, hsys⟩ := handleCompleted_recorded hstep
      have hone : key ∈ s₁.syscallTable ↔
          key ∈ s.syscallTable ∨ e.2.unconsidered = true ∧ e.2.sc = key := by
        rw [hsys, syscallTables_eq, Cell.mem_table_recordAll, Completed.syscallEvents]
        split_ifs with hu
        · simp [hu]
        · simp [hu]
      rw [ih hrun, hone, List.exists_mem_cons_iff, or_assoc]

/-- The numbers that the handlers know have a name. -/
theorem sysno_of_not_validName {sc : CInt} (h : ¬ValidName sc) : sysno sc = .other := by
  have hne : ∀ k : CInt, ValidName k → ¬sc = k := fun k hk heq => h (heq ▸ hk)
  unfold sysno
  iterate 29 rw [if_neg (hne _ (by decide))]

/-- The syscalls of the file statistics have a name. -/
theorem Completed.validName_of_considered {c : Completed} (h : c.unconsidered = false) :
    ValidName c.sc := by
  by_contra hname
  rw [unconsidered, sysno_of_not_validName hname] at h
  cases h

/-! ### The accesses -/

/-- All names are read within the array exactly if all keys are valid indices of it. -/
theorem none_notMem_syscallRows_iff {names : Fin NAMES_LENGTH → CString} {table : SyscallTable} :
    none ∉ syscallRows names table ↔ ∀ key ∈ table, ValidName key := by
  have hrow : ∀ key tmp, syscallRow names key tmp = none ↔ ¬ValidName key := by
    intro key tmp
    rw [syscallRow, Option.map_eq_none_iff, syscallName]
    split_ifs with h
    · exact ⟨fun hnone => hnone.elim, fun hnot => absurd h hnot⟩
    · exact ⟨fun _ => h, fun _ => rfl⟩
  simp only [syscallRows, Multiset.mem_map, hrow]
  constructor
  · intro h key hkey
    obtain ⟨tmp, htmp⟩ := Finmap.mem_iff.mp hkey
    by_contra hname
    exact h ⟨⟨key, tmp⟩, Finmap.mem_lookup_iff.mp htmp, hname⟩
  · rintro h ⟨⟨key, tmp⟩, hmem, hname⟩
    exact hname (h key (Finmap.mem_iff.mpr ⟨tmp, Finmap.mem_lookup_iff.mpr hmem⟩))

/-- **The names are read within the array**, in whatever order and by any number of
tracer threads, if and only if no completed syscall has a number outside of it. -/
theorem names_in_bounds_iff {ι : Type} {threads : List ι} {start finish : ι → Tracer}
    {calls : ι → List (Heap × Completed)} (hstart : ∀ i ∈ threads, (start i).Fresh)
    (hrun : ∀ i ∈ threads, (calls i).foldlM handleAmong (start i) = .ok (finish i))
    (names : Fin NAMES_LENGTH → CString) :
    ((∀ key ∈ mainSyscallTable (threads.map fun i => (finish i).syscallTable), ValidName key) ∧
      none ∉ syscallRows names
        (mainSyscallTable (threads.map fun i => (finish i).syscallTable))) ↔
    ∀ i ∈ threads, ∀ e ∈ calls i, ValidName e.2.sc := by
  have hkey : ∀ key, key ∈ mainSyscallTable (threads.map fun i => (finish i).syscallTable) ↔
      ∃ i ∈ threads, ∃ e ∈ calls i, e.2.unconsidered = true ∧ e.2.sc = key := by
    intro key
    simp only [mem_mainSyscallTable, List.mem_map, exists_exists_and_eq_and]
    refine exists_congr fun i => and_congr_right fun hi => ?_
    rw [mem_syscallTable_of_run (hrun i hi), (hstart i hi).syscallTable]
    exact or_iff_right fun h => Finmap.notMem_empty h
  rw [none_notMem_syscallRows_iff, and_self]
  constructor
  · intro h i hi e he
    cases hu : e.2.unconsidered with
    | false => exact Completed.validName_of_considered hu
    | true => exact h _ ((hkey _).mpr ⟨i, hi, e, he, hu, rfl⟩)
  · intro h key hmem
    obtain ⟨i, hi, e, he, -, rfl⟩ := (hkey key).mp hmem
    exact h i hi e he

/-- A syscall that the kernel does not know: it returns `-ENOSYS`. -/
def unknownSyscall (sc : CLong) : Completed := .ofRegs sc 0 0 0 0 (-38) fun _ => none

/-- Two threads, both of which make the calls with the first and the last name of those that
are not in the statistics of files. -/
theorem names_in_bounds_two :
    ∃ s', [(Tracer.start.heap, unknownSyscall 4), (Tracer.start.heap, unknownSyscall 546)].foldlM
        handleAmong Tracer.start = .ok s' ∧
      none ∉ syscallRows (fun _ => []) (mainSyscallTable [s'.syscallTable, s'.syscallTable]) := by
  obtain ⟨s', hs'⟩ : ∃ s', [(Tracer.start.heap, unknownSyscall 4),
      (Tracer.start.heap, unknownSyscall 546)].foldlM handleAmong Tracer.start = .ok s' := ⟨_, rfl⟩
  have hstart : ∀ i : ℕ, i ∈ [0, 1] → Tracer.start.Fresh := fun _ _ => Tracer.start_fresh
  refine ⟨s', hs', ((names_in_bounds_iff hstart (fun _ _ => hs') _).mpr fun i hi e he => ?_).2⟩
  simp only [List.mem_cons, List.not_mem_nil, or_false] at he
  rcases he with rfl | rfl <;> decide

/-- **A number without a name** is read outside of the array. -/
theorem name_out_of_bounds :
    ∃ s', [(Tracer.start.heap, unknownSyscall 1000)].foldlM handleAmong Tracer.start = .ok s' ∧
      1000 ∈ mainSyscallTable [s'.syscallTable] ∧ ¬ValidName 1000 ∧
      none ∈ syscallRows (fun _ => []) (mainSyscallTable [s'.syscallTable]) := by
  obtain ⟨s', hs'⟩ : ∃ s', [(Tracer.start.heap, unknownSyscall 1000)].foldlM handleAmong
      Tracer.start = .ok s' := ⟨_, rfl⟩
  have hmem : (1000 : CInt) ∈ mainSyscallTable [s'.syscallTable] := by
    refine mem_mainSyscallTable.mpr ⟨_, List.mem_singleton_self _, ?_⟩
    exact (mem_syscallTable_of_run hs').mpr (Or.inr ⟨_, List.mem_singleton_self _, rfl, rfl⟩)
  have hname : ¬ValidName 1000 := by decide
  refine ⟨s', hs', hmem, hname, ?_⟩
  by_contra hrows
  exact hname (none_notMem_syscallRows_iff.mp hrows 1000 hmem)

end Iotrace
