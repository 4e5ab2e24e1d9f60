/-
# What can be read in the JSON file

Every table that has been recorded and merged in any way is written down completely:
where all names of syscalls can be read, the calls of the builder are those of one
document, and the document has both tables, with every file, every entry of a histogram
and every number (`json_round_trip`).

`json_of_trace` puts this at the end of a trace.  What a reader finds in the file is what
one thread would have recorded that saw the syscalls of all tracees.
-/

import Iotrace.JsonPrinter
import Iotrace.OutputName
import Iotrace.TraceReport

namespace Iotrace

open EventTree FiniteMap Runs Kernel

/-- An entry of a histogram is made under the low bits of its key, which stays. -/
theorem blocks_keyed (results : List CLong) : Blocks.Keyed (blocksAcc.recordAll ∅ results) := by
  rintro low ⟨key, count⟩ hlook
  rw [blocks_lookup] at hlook
  cases hfilter : results.filter fun b => toCInt b = low with
  | nil =>
      rw [hfilter] at hlook
      cases hlook
  | cons b rest =>
      have hmem : b ∈ results.filter fun b => toCInt b = low := by
        rw [hfilter]
        exact List.mem_cons_self
      rw [hfilter] at hlook
      obtain rfl := (Prod.mk.inj (Option.some.inj hlook)).1
      exact of_decide_eq_true (List.mem_filter.mp hmem).2

theorem readWrite_keyed (calls : List (CULongLong × CLong)) :
    Blocks.Keyed (readWriteAcc.recordAll initReadWriteStat calls).blocks := by
  rw [readWrite_foldl_blocks]
  exact blocks_keyed _

/-- **The histograms of a table** that has been recorded can be told from their keys. -/
theorem recordAll_keyed (es : List FileEvent) :
    FileStatTable.Keyed (fileTables.recordAll fileStatCreate es) := by
  intro file stat hstat
  have hrec := fileStatOf_recordAll fileStatCreate es file
  rw [fileStatOf_create, fileStatOf, fileStatGet, hstat, Option.getD_some] at hrec
  rw [hrec.readStats, hrec.writeStats]
  exact ⟨readWrite_keyed _, readWrite_keyed _⟩

/-- The keys of a table of syscalls that has been recorded are their numbers. -/
theorem mem_recordAll_syscalls {es : List SyscallEvent} {key : CInt} :
    key ∈ syscallTables.recordAll syscallStatCreate es ↔ ∃ e ∈ es, e.syscall = key := by
  rw [syscallTables_eq, Cell.mem_table_recordAll]
  exact or_iff_right fun h => Finmap.notMem_empty h

section Printed

variable {files : List FileEvent} {syscalls : List SyscallEvent} {fileStatTable : FileStatTable}
  {syscallTable : SyscallTable} (hfiles : fileStatTable = fileTables.recordAll fileStatCreate files)
  (hsyscalls : syscallTable = syscallTables.recordAll syscallStatCreate syscalls)
  (names : Fin NAMES_LENGTH → CString) (traceId hostname : CString) (rank : Option CString)
  (walks : Walks fileStatTable syscallTable)

include hsyscalls in
/-- There is a document if all recorded syscalls have a name. -/
theorem exists_jsonRoot_iff :
    (∃ root, jsonRoot names traceId hostname rank walks = some root) ↔
      ∀ e ∈ syscalls, ValidName e.syscall := by
  have hrows : (∃ root, jsonRoot names traceId hostname rank walks = some root) ↔
      ∃ rows, walkRows names walks.syscalls = some rows := by
    rw [jsonRoot_eq]
    cases walkRows names walks.syscalls with
    | none => exact iff_of_false nofun nofun
    | some rows => exact iff_of_true ⟨_, rfl⟩ ⟨_, rfl⟩
  rw [hrows, exists_walkRows_iff, hsyscalls]
  constructor
  · intro h e he
    exact h e.syscall (mem_recordAll_syscalls.mpr ⟨e, he, rfl⟩)
  · intro h key hkey
    obtain ⟨e, he, rfl⟩ := mem_recordAll_syscalls.mp hkey
    exact h e he

include hfiles in
/-- The document has both tables. -/
theorem decode_jsonRoot {root : Document}
    (hroot : jsonRoot names traceId hostname rank walks = some root) :
    ∃ rows, JsonContents.decode root =
        some ⟨traceId, hostname, rank.getD (cstr "NULL"), fileStatTable, rows⟩ ∧
      (rows : Multiset SyscallRow).map some = syscallRows names syscallTable := by
  rw [jsonRoot_eq] at hroot
  obtain ⟨rows, hrows, rfl⟩ := Option.map_eq_some_iff.mp hroot
  have hkeyed : FileStatTable.Keyed fileStatTable := by
    rw [hfiles]
    exact recordAll_keyed files
  exact ⟨rows, decode_document hkeyed traceId hostname rank walks rows, walkRows_rows hrows⟩

end Printed

/-- **The JSON file has everything.**  Take tables that were recorded and merged in any
way, and any order in which the hash tables are visited.  The calls of `create_builder`
make one document, with none of them out of place, if and only if every recorded syscall
has a name; and the document has the ids, the whole table of files with its histograms,
and the row of every syscall. -/
theorem json_round_trip (r : Recording FileEvent) (q : Recording SyscallEvent)
    (walks : Walks (r.state fileTables) (q.state syscallTables))
    (names : Fin NAMES_LENGTH → CString) (traceId hostname : CString) (rank : Option CString) :
    ((∃ root, jsonRoot names traceId hostname rank walks = some root) ↔
        ∀ e ∈ q.events, ValidName e.syscall) ∧
      ∀ root, jsonRoot names traceId hostname rank walks = some root →
        ∃ rows, JsonContents.decode root =
            some ⟨traceId, hostname, rank.getD (cstr "NULL"), r.state fileTables, rows⟩ ∧
          (rows : Multiset SyscallRow).map some =
            syscallRows names (q.state syscallTables) :=
  ⟨exists_jsonRoot_iff (Recording.state_eq syscallTables_lawful q) names traceId hostname rank
      walks,
    fun _ hroot => decode_jsonRoot (Recording.state_eq fileTables_lawful r) names traceId hostname
      rank walks hroot⟩

/-- The orders are there for all tables. -/
theorem exists_walks (fileStatTable : FileStatTable) (syscallTable : SyscallTable) :
    Nonempty (Walks fileStatTable syscallTable) :=
  ⟨⟨⟨_, Multiset.coe_toList _⟩, fun _ _ => ⟨_, Multiset.coe_toList _⟩,
    fun _ _ => ⟨_, Multiset.coe_toList _⟩, ⟨_, Multiset.coe_toList _⟩⟩⟩

theorem json_round_trip_read : ∃ walks : Walks
    ((Recording.record .fresh (.incrRead SOCKET 30 16)).state fileTables)
    ((Recording.record .fresh ⟨39, 2⟩).state syscallTables),
    ∃ root, jsonRoot (fun _ => []) (cstr "run") (cstr "node") none walks = some root := by
  obtain ⟨walks⟩ := exists_walks
    ((Recording.record .fresh (.incrRead SOCKET 30 16)).state fileTables)
    ((Recording.record .fresh ⟨39, 2⟩).state syscallTables)
  refine ⟨walks, (json_round_trip _ _ walks _ _ _ _).1.mpr fun e he => ?_⟩
  obtain rfl := List.mem_singleton.mp he
  decide

end Iotrace
