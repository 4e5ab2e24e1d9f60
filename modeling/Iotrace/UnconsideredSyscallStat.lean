/-
# Time spent in the other syscalls

`src/unconsidered_syscall_stat.c`.  Syscalls that are not part of the file
statistics are counted and timed by their number.  `syscall_stat_merge` adds the
table of one tracer thread to another, entry by entry in any order.
-/

import Iotrace.CTypes
import Iotrace.Library.FiniteMap

namespace Iotrace

/-- `syscall_stat`. -/
structure SyscallStat where
  count : CULongLong
  totalNs : CULongLong
  deriving DecidableEq

/-- The syscall statistics of one tracer thread, by syscall number. -/
abbrev SyscallTable := Finmap fun _ : CInt => SyscallStat

/-- `syscall_stat_create`. -/
def syscallStatCreate : SyscallTable := ∅

/-- `syscall_stat_get`. -/
def syscallStatGet (table : SyscallTable) (syscall : CInt) : Option SyscallStat :=
  table.lookup syscall

/-- `syscall_stat_insert`. -/
def syscallStatInsert (table : SyscallTable) (syscall : CInt) : SyscallTable :=
  table.insert syscall ⟨0, 0⟩

/-- `syscall_stat_incr`. -/
def syscallStatIncr (table : SyscallTable) (syscall : CInt) (timeNs : CULongLong) :
    SyscallTable :=
  match syscallStatGet table syscall with
  | some tmp => table.insert syscall ⟨tmp.count + 1, tmp.totalNs + timeNs⟩
  | none => (syscallStatInsert table syscall).insert syscall ⟨1, timeNs⟩

/-! ### Merging -/

/-- The loop body of `syscall_stat_merge`. -/
def syscallStatMergeEntry (table1 : SyscallTable) (syscall : CInt) (stat2 : SyscallStat) :
    SyscallTable :=
  match syscallStatGet table1 syscall with
  | some stat1 =>
    table1.insert syscall ⟨stat1.count + stat2.count, stat1.totalNs + stat2.totalNs⟩
  | none =>
    (syscallStatInsert table1 syscall).insert syscall ⟨0 + stat2.count, 0 + stat2.totalNs⟩

/-- The entry of a syscall after `syscall_stat_merge`. -/
def SyscallStat.merge (stat1 stat2 : SyscallStat) : SyscallStat :=
  ⟨stat1.count + stat2.count, stat1.totalNs + stat2.totalNs⟩

theorem syscallStatMergeEntry_eq (table1 : SyscallTable) (syscall : CInt) (stat2 : SyscallStat) :
    syscallStatMergeEntry table1 syscall stat2 =
      FiniteMap.modify table1 syscall fun stat1 => (stat1.getD ⟨0, 0⟩).merge stat2 := by
  unfold syscallStatMergeEntry FiniteMap.modify syscallStatInsert syscallStatGet
  cases table1.lookup syscall with
  | none => exact Finmap.insert_insert table1
  | some stat1 => rfl

theorem syscallStatMergeEntry_exchangeable : FiniteMap.Exchangeable syscallStatMergeEntry := by
  intro table1 syscall stat2 syscall' stat2' h
  simp only [syscallStatMergeEntry_eq]
  exact FiniteMap.modify_comm h _ _ _

/-- `syscall_stat_merge`: the first table takes in the second. -/
def syscallStatMerge (table1 table2 : SyscallTable) : SyscallTable :=
  FiniteMap.walk syscallStatMergeEntry syscallStatMergeEntry_exchangeable table2 table1

end Iotrace
