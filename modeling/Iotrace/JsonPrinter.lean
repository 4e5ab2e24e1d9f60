/-
# The JSON file

`src/json_printer.c` walks over the two main tables and calls a JSON builder: a container
is begun and ended, a member is named, a value is added.  Here a call is an event of
`EventTree`, and the functions give the row of their calls, in whatever order the hash
tables are enumerated (`Walks`).  The name of a syscall is read from an array; where the
number is no index of it, the functions have no result.

The calls are those of one document: none of them comes where a builder has no place for
it, and every container that is begun is ended (`createBuilder_eq`).  The document can be
taken apart again.  What `JsonContents.decode` finds in it are both tables, for all their
entries and every number in them (`decode_document`).
-/

import Iotrace.Library.EventTree
import Iotrace.SyscallNames

namespace Iotrace

open EventTree FiniteMap

/-- A plain value of the document: a string, a `gint64` or a `double`. -/
inductive Scalar where
  | string (s : CString)
  | int (i : CLong)
  | double (r : Rate)

/-- A call of the JSON builder. -/
abbrev BuilderCall := Event String Scalar

/-- A document of the JSON builder. -/
abbrev Document := Tree String Scalar

/-- The orders in which the iterators visit the tables, and the histograms of each file. -/
structure Walks (fileStatTable : FileStatTable) (syscallTable : SyscallTable) where
  files : Enumeration fileStatTable
  readBlocks : CString → (stat : FileStat) → Enumeration stat.readStats.blocks
  writeBlocks : CString → (stat : FileStat) → Enumeration stat.writeStats.blocks
  syscalls : Enumeration syscallTable

/-! ### The calls -/

/-- The calls for the opens, or the closes, of a file. -/
def openCloseCalls (name : String) (stat : OpenCloseStat) : List BuilderCall :=
  [.memberName name, .beginArray, .value (.int stat.count), .value (.int stat.totalNs),
    .value (.int stat.minNs), .value (.int stat.maxNs), .endArray]

/-- The calls for the reads, or the writes, of a file. -/
def readWriteCalls (name : String) (stat : ReadWriteStat) : List BuilderCall :=
  [.memberName name, .beginArray, .value (.int stat.totalB), .value (.int stat.totalNs),
    .value (.double stat.minBps), .value (.double stat.maxBps), .endArray]

/-- The calls for a histogram. -/
def blocksCalls (name : String) {blocks : Blocks} (walk : Enumeration blocks) :
    List BuilderCall :=
  [.memberName name, .beginArray] ++
    walk.entries.flatMap (fun block =>
      [.beginArray, .value (.int block.2.1), .value (.int block.2.2), .endArray]) ++
    [.endArray]

/-- The loop body of `builder_add_file_stats`. -/
def fileCalls (filename : CString) (stat : FileStat)
    (readBlocks : Enumeration stat.readStats.blocks)
    (writeBlocks : Enumeration stat.writeStats.blocks) : List BuilderCall :=
  [.beginObject, .memberName "filename", .value (.string filename)] ++
    openCloseCalls "open" stat.openStats ++ openCloseCalls "close" stat.closeStats ++
    readWriteCalls "read" stat.readStats ++ blocksCalls "read-blocks" readBlocks ++
    readWriteCalls "write" stat.writeStats ++ blocksCalls "write-blocks" writeBlocks ++
    [.endObject]

section Tables

variable {fileStatTable : FileStatTable} {syscallTable : SyscallTable}

/-- `builder_add_file_stats`. -/
def builderAddFileStats (walks : Walks fileStatTable syscallTable) : List BuilderCall :=
  [.memberName "file statistics", .beginArray] ++
    walks.files.entries.flatMap (fun file =>
      fileCalls file.1 file.2 (walks.readBlocks file.1 file.2) (walks.writeBlocks file.1 file.2)) ++
    [.endArray]

/-- The calls for an entry of the syscall table. -/
def rowCalls (row : SyscallRow) : List BuilderCall :=
  [.beginObject, .memberName "syscall", .value (.string row.syscall),
    .memberName "count", .value (.int row.count),
    .memberName "total ns", .value (.int row.totalNs), .endObject]

/-- The rows in the order of the walk, `none` where a name is read outside of the array. -/
def walkRows (names : Fin NAMES_LENGTH → CString) (walk : Enumeration syscallTable) :
    Option (List SyscallRow) :=
  walk.entries.mapM fun entry => syscallRow names entry.1 entry.2

/-- `builder_add_syscall_stats`. -/
def builderAddSyscallStats (names : Fin NAMES_LENGTH → CString)
    (walk : Enumeration syscallTable) : Option (List BuilderCall) := do
  let rows ← walkRows names walk
  some ([.memberName "unmatched syscalls", .beginArray] ++ rows.flatMap rowCalls ++ [.endArray])

/-- `create_builder`. -/
def createBuilder (names : Fin NAMES_LENGTH → CString) (traceId hostname : CString)
    (rank : Option CString) (walks : Walks fileStatTable syscallTable) :
    Option (List BuilderCall) := do
  let syscallStats ← builderAddSyscallStats names walks.syscalls
  some ([.beginObject, .memberName "trace-id", .value (.string traceId),
    .memberName "hostname", .value (.string hostname),
    .memberName "rank", .value (.string (rank.getD (cstr "NULL")))] ++
    builderAddFileStats walks ++ syscallStats ++ [.endObject])

/-- The root that `print_stats_as_json` gives to the generator.  `read` makes it of the calls,
as the documentation of `JsonBuilder` says; the library itself is not part of the model. -/
def jsonRoot (names : Fin NAMES_LENGTH → CString) (traceId hostname : CString)
    (rank : Option CString) (walks : Walks fileStatTable syscallTable) : Option Document := do
  read (← createBuilder names traceId hostname rank walks)

/-- The rows are those of the table, whatever the order is. -/
theorem walkRows_rows {names : Fin NAMES_LENGTH → CString} {walk : Enumeration syscallTable}
    {rows : List SyscallRow} (h : walkRows names walk = some rows) :
    (rows : Multiset SyscallRow).map some = syscallRows names syscallTable := by
  rw [syscallRows, ← walk.complete, Multiset.map_coe, Multiset.map_coe, mapM_eq_some_iff.mp h]

/-- **All names can be read** if and only if all keys are indices of the array. -/
theorem exists_walkRows_iff {names : Fin NAMES_LENGTH → CString}
    {walk : Enumeration syscallTable} :
    (∃ rows, walkRows names walk = some rows) ↔ ∀ key ∈ syscallTable, ValidName key := by
  rw [← none_notMem_syscallRows_iff]
  constructor
  · rintro ⟨rows, hrows⟩
    rw [← walkRows_rows hrows]
    simp
  · intro h
    refine exists_mapM fun entry hentry => Option.ne_none_iff_exists'.mp fun hnone => h ?_
    rw [syscallRows, ← walk.complete]
    exact Multiset.mem_map.mpr ⟨entry, hentry, hnone⟩

/-! ### The document -/

/-- The four numbers of opens or closes. -/
def openCloseDocument (stat : OpenCloseStat) : Document :=
  .array [.value (.int stat.count), .value (.int stat.totalNs), .value (.int stat.minNs),
    .value (.int stat.maxNs)]

/-- The four numbers of reads or writes. -/
def readWriteDocument (stat : ReadWriteStat) : Document :=
  .array [.value (.int stat.totalB), .value (.int stat.totalNs), .value (.double stat.minBps),
    .value (.double stat.maxBps)]

/-- A key of a histogram and its number. -/
def blockDocument (block : Sigma fun _ : CInt => CLong × CULongLong) : Document :=
  .array [.value (.int block.2.1), .value (.int block.2.2)]

/-- A file. -/
def fileDocument (filename : CString) (stat : FileStat)
    (readBlocks : Enumeration stat.readStats.blocks)
    (writeBlocks : Enumeration stat.writeStats.blocks) : Document :=
  .object [("filename", .value (.string filename)),
    ("open", openCloseDocument stat.openStats),
    ("close", openCloseDocument stat.closeStats),
    ("read", readWriteDocument stat.readStats),
    ("read-blocks", .array (readBlocks.entries.map blockDocument)),
    ("write", readWriteDocument stat.writeStats),
    ("write-blocks", .array (writeBlocks.entries.map blockDocument))]

/-- An entry of the syscall table. -/
def rowDocument (row : SyscallRow) : Document :=
  .object [("syscall", .value (.string row.syscall)), ("count", .value (.int row.count)),
    ("total ns", .value (.int row.totalNs))]

/-- The whole document, with the given rows for the syscalls. -/
def document (traceId hostname : CString) (rank : Option CString)
    (walks : Walks fileStatTable syscallTable) (rows : List SyscallRow) : Document :=
  .object [("trace-id", .value (.string traceId)), ("hostname", .value (.string hostname)),
    ("rank", .value (.string (rank.getD (cstr "NULL")))),
    ("file statistics", .array (walks.files.entries.map fun file =>
      fileDocument file.1 file.2 (walks.readBlocks file.1 file.2)
        (walks.writeBlocks file.1 file.2))),
    ("unmatched syscalls", .array (rows.map rowDocument))]

theorem events_array (items : List Document) :
    (Tree.array items).events = .beginArray :: (items.flatMap Tree.events ++ [.endArray]) := by
  rw [Tree.events, itemEvents_eq_flatMap]

theorem blocksCalls_eq (name : String) {blocks : Blocks} (walk : Enumeration blocks) :
    blocksCalls name walk =
      .memberName name :: (Tree.array (walk.entries.map blockDocument) : Document).events := by
  rw [events_array, List.flatMap_map]
  rfl

/-- The loop body makes the calls of one object. -/
theorem fileCalls_eq (filename : CString) (stat : FileStat)
    (readBlocks : Enumeration stat.readStats.blocks)
    (writeBlocks : Enumeration stat.writeStats.blocks) :
    fileCalls filename stat readBlocks writeBlocks =
      (fileDocument filename stat readBlocks writeBlocks).events := by
  rw [fileCalls, blocksCalls_eq, blocksCalls_eq, fileDocument]
  simp [Tree.events, memberEvents, openCloseCalls, readWriteCalls, openCloseDocument,
    readWriteDocument, itemEvents]

/-- **The calls are those of one document,** if all names can be read. -/
theorem createBuilder_eq (names : Fin NAMES_LENGTH → CString) (traceId hostname : CString)
    (rank : Option CString) (walks : Walks fileStatTable syscallTable) :
    createBuilder names traceId hostname rank walks =
      (walkRows names walks.syscalls).map fun rows =>
        (document traceId hostname rank walks rows).events := by
  rw [createBuilder, builderAddSyscallStats]
  cases walkRows names walks.syscalls with
  | none => rfl
  | some rows =>
      have hfiles : builderAddFileStats walks = .memberName "file statistics" ::
          (Tree.array (walks.files.entries.map fun file => fileDocument file.1 file.2
            (walks.readBlocks file.1 file.2) (walks.writeBlocks file.1 file.2)) :
              Document).events := by
        rw [events_array, List.flatMap_map, builderAddFileStats]
        simp only [fileCalls_eq]
        rfl
      have hrows : rows.flatMap rowCalls = (rows.map rowDocument).flatMap Tree.events := by
        rw [List.flatMap_map]
        rfl
      simp only [Option.bind_eq_bind, Option.bind_some, Option.map_some, hfiles, hrows]
      simp [document, Tree.events, memberEvents, itemEvents_eq_flatMap]

/-- The builder has no place without the document, and ends with it. -/
theorem jsonRoot_eq (names : Fin NAMES_LENGTH → CString) (traceId hostname : CString)
    (rank : Option CString) (walks : Walks fileStatTable syscallTable) :
    jsonRoot names traceId hostname rank walks =
      (walkRows names walks.syscalls).map (document traceId hostname rank walks) := by
  rw [jsonRoot, createBuilder_eq]
  cases walkRows names walks.syscalls with
  | none => rfl
  | some rows => exact read_events _

/-! ### Taking the document apart -/

/-- The key of a histogram's entry is stored under its low 32 bits. -/
def Blocks.Keyed (blocks : Blocks) : Prop :=
  ∀ low block, blocks.lookup low = some block → toCInt block.1 = low

/-- This holds of both histograms of every file. -/
def FileStatTable.Keyed (table : FileStatTable) : Prop :=
  ∀ file stat, table.lookup file = some stat →
    Blocks.Keyed stat.readStats.blocks ∧ Blocks.Keyed stat.writeStats.blocks

/-- A string in a document. -/
def decodeString : Document → Option CString
  | .value (.string s) => some s
  | _ => none

/-- A number in a document. -/
def decodeInt : Document → Option CLong
  | .value (.int i) => some i
  | _ => none

/-- `open : [ 'count', 'total nanosecs', 'min nanosecs', 'max nanosecs' ]`. -/
def decodeOpenClose : Document → Option OpenCloseStat
  | .array [.value (.int count), .value (.int totalNs), .value (.int minNs), .value (.int maxNs)] =>
    some ⟨count, totalNs, minNs, maxNs⟩
  | _ => none

/-- `[ 'number of bytes', 'count' ]`. -/
def decodeBlock : Document → Option (Sigma fun _ : CInt => CLong × CULongLong)
  | .array [.value (.int key), .value (.int count)] => some ⟨toCInt key, key, count⟩
  | _ => none

/-- `read-blocks : [ [ 'number of bytes', 'count' ], ... ]`. -/
def decodeBlocks (d : Document) : Option Blocks := do
  let entries ← (← d.items).mapM decodeBlock
  some entries.toFinmap

/-- `read : [ 'total bytes', 'total nanosecs', 'min byte/sec', 'max byte/sec' ]`, next to
the histogram. -/
def decodeReadWrite (blocks : Blocks) : Document → Option ReadWriteStat
  | .array [.value (.int totalB), .value (.int totalNs), .value (.double minBps),
      .value (.double maxBps)] =>
    some ⟨totalB, totalNs, minBps, maxBps, blocks⟩
  | _ => none

/-- An object of `file statistics`. -/
def decodeFile (d : Document) : Option (Sigma fun _ : CString => FileStat) := do
  let filename ← decodeString (← d.member "filename")
  let openStats ← decodeOpenClose (← d.member "open")
  let closeStats ← decodeOpenClose (← d.member "close")
  let readBlocks ← decodeBlocks (← d.member "read-blocks")
  let readStats ← decodeReadWrite readBlocks (← d.member "read")
  let writeBlocks ← decodeBlocks (← d.member "write-blocks")
  let writeStats ← decodeReadWrite writeBlocks (← d.member "write")
  some ⟨filename, openStats, closeStats, readStats, writeStats⟩

/-- An object of `unmatched syscalls`. -/
def decodeRow (d : Document) : Option SyscallRow := do
  let syscall ← decodeString (← d.member "syscall")
  let count ← decodeInt (← d.member "count")
  let totalNs ← decodeInt (← d.member "total ns")
  some ⟨syscall, count, totalNs⟩

/-- What the file says. -/
structure JsonContents where
  traceId : CString
  hostname : CString
  rank : CString
  fileStatTable : FileStatTable
  rows : List SyscallRow

/-- What a reader of the file finds in it. -/
def JsonContents.decode (d : Document) : Option JsonContents := do
  let traceId ← decodeString (← d.member "trace-id")
  let hostname ← decodeString (← d.member "hostname")
  let rank ← decodeString (← d.member "rank")
  let files ← (← (← d.member "file statistics").items).mapM decodeFile
  let rows ← (← (← d.member "unmatched syscalls").items).mapM decodeRow
  some ⟨traceId, hostname, rank, files.toFinmap, rows⟩

/-- The histograms are found again. -/
theorem decodeBlocks_document {blocks : Blocks} (hkeyed : Blocks.Keyed blocks)
    (walk : Enumeration blocks) :
    decodeBlocks (.array (walk.entries.map blockDocument)) = some blocks := by
  have hblock : ∀ block ∈ walk.entries, decodeBlock (blockDocument block) = some block := by
    rintro ⟨low, key, count⟩ hblock
    have hlow : toCInt key = low := hkeyed low (key, count) (walk.mem_iff.mp hblock)
    rw [← hlow]
    rfl
  simp only [decodeBlocks, Tree.items, Option.bind_eq_bind, Option.bind_some,
    mapM_map_eq_some (h := id) hblock, List.map_id, walk.toFinmap]

/-- An object is its file with its statistics. -/
theorem decodeFile_document {filename : CString} {stat : FileStat}
    (hread : Blocks.Keyed stat.readStats.blocks) (hwrite : Blocks.Keyed stat.writeStats.blocks)
    (readBlocks : Enumeration stat.readStats.blocks)
    (writeBlocks : Enumeration stat.writeStats.blocks) :
    decodeFile (fileDocument filename stat readBlocks writeBlocks) = some ⟨filename, stat⟩ := by
  simp [decodeFile, fileDocument, Tree.member, decodeString, openCloseDocument, decodeOpenClose,
    readWriteDocument, decodeReadWrite, decodeBlocks_document hread,
    decodeBlocks_document hwrite]

theorem decodeRow_document (row : SyscallRow) : decodeRow (rowDocument row) = some row := by
  simp [decodeRow, rowDocument, Tree.member, decodeString, decodeInt]

/-- **The document is taken apart again,** down to every number of both tables. -/
theorem decode_document (hkeyed : FileStatTable.Keyed fileStatTable) (traceId hostname : CString)
    (rank : Option CString) (walks : Walks fileStatTable syscallTable) (rows : List SyscallRow) :
    JsonContents.decode (document traceId hostname rank walks rows) =
      some ⟨traceId, hostname, rank.getD (cstr "NULL"), fileStatTable, rows⟩ := by
  have hfile : ∀ file ∈ walks.files.entries, decodeFile (fileDocument file.1 file.2
      (walks.readBlocks file.1 file.2) (walks.writeBlocks file.1 file.2)) = some file := by
    intro file hfile
    obtain ⟨hread, hwrite⟩ := hkeyed file.1 file.2 (walks.files.mem_iff.mp hfile)
    exact decodeFile_document hread hwrite _ _
  have hrow : ∀ row ∈ rows, decodeRow (rowDocument row) = some row := fun row _ =>
    decodeRow_document row
  simp [JsonContents.decode, document, Tree.member, Tree.items, decodeString,
    mapM_map_eq_some (h := id) hfile, mapM_map_eq_some (h := id) hrow, walks.files.toFinmap]

end Tables

end Iotrace
