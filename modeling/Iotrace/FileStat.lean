/-
# Statistics for each file

`src/file_stat.c`.  A table maps file names to the statistics of the calls that
were attributed to them.  Opens and closes keep a count, the total time and the
extremes of the time; reads and writes keep the bytes, the total time, the
extremes of the rate and a histogram of the results.  `file_state_merge` adds the
table of one tracer thread to another; it walks over hash tables, and the walk is
`FiniteMap.walk`, which asks for a proof that the order does not matter.

Two conventions of the model.  A rate is a `double` in the source and an exact
rational here, with `⊤` for the infinity that a division by a time of zero
gives.  The histogram hashes and compares its `ssize_t` keys with `g_int_hash`
and `g_int_equal`, which see the low 32 bits only; it is therefore a map from
those 32 bits to the key that was stored and its count.
-/

import Iotrace.CTypes
import Iotrace.Library.FiniteMap
import Mathlib.Data.Rat.Defs
import Mathlib.Algebra.Order.Ring.Unbundled.Rat
import Mathlib.Order.WithBot

namespace Iotrace

/-- `MIN_NS_INITIAL`. -/
def MIN_NS_INITIAL : CULongLong := 9999999999999

/-- A number of bytes for each second, `⊤` where the time is zero. -/
abbrev Rate := WithTop ℚ

/-- `MIN_BPS_INITIAL`. -/
def MIN_BPS_INITIAL : Rate := ((9999999999999 : ℚ) : WithTop ℚ)

/-- The histogram of results: under the 32 bits of a key that the table compares,
the key and the number of its events. -/
abbrev Blocks := Finmap fun _ : CInt => CLong × CULongLong

/-- `open_close_stat`. -/
structure OpenCloseStat where
  count : CULongLong
  totalNs : CULongLong
  minNs : CULongLong
  maxNs : CULongLong
  deriving DecidableEq

/-- `read_write_stat`. -/
structure ReadWriteStat where
  totalB : CULongLong
  totalNs : CULongLong
  minBps : Rate
  maxBps : Rate
  blocks : Blocks

/-- `file_stat`. -/
structure FileStat where
  openStats : OpenCloseStat
  closeStats : OpenCloseStat
  readStats : ReadWriteStat
  writeStats : ReadWriteStat

/-- The file statistics of one tracer thread, by file name. -/
abbrev FileStatTable := Finmap fun _ : CString => FileStat

/-- An `open_close_stat` before the first event. -/
def initOpenCloseStat : OpenCloseStat := ⟨0, 0, MIN_NS_INITIAL, 0⟩

/-- A `read_write_stat` before the first event. -/
def initReadWriteStat : ReadWriteStat := ⟨0, 0, MIN_BPS_INITIAL, ((0 : ℚ) : WithTop ℚ), ∅⟩

/-- `init_file_stat`. -/
def initFileStat : FileStat :=
  ⟨initOpenCloseStat, initOpenCloseStat, initReadWriteStat, initReadWriteStat⟩

/-- `stat_table_insert`. -/
def statTableInsert (table : FileStatTable) (filename : CString) : FileStatTable :=
  table.insert filename initFileStat

/-- `file_stat_create`: the table starts with an entry for unknown files. -/
def fileStatCreate : FileStatTable := statTableInsert ∅ (cstr "NULL")

/-- `file_stat_get`. -/
def fileStatGet (table : FileStatTable) (filename : CString) : Option FileStat :=
  table.lookup filename

/-- `file_stat_get_safe`: the entry of a file, made where it is missing. -/
def fileStatGetSafe (table : FileStatTable) (filename : CString) : FileStatTable × FileStat :=
  match fileStatGet table filename with
  | some tmp => (table, tmp)
  | none => (statTableInsert table filename, initFileStat)

/-- The update that `file_stat_incr_open` and `file_stat_incr_close` make. -/
def OpenCloseStat.incr (stat : OpenCloseStat) (timeNs : CULongLong) : OpenCloseStat where
  count := stat.count + 1
  totalNs := stat.totalNs + timeNs
  minNs := if timeNs < stat.minNs then timeNs else stat.minNs
  maxNs := if stat.maxNs < timeNs then timeNs else stat.maxNs

/-- Getting the entry of a file and storing a change of it is updating the entry. -/
theorem insert_fileStatGetSafe (table : FileStatTable) (filename : CString)
    (f : FileStat → FileStat) :
    (fileStatGetSafe table filename).1.insert filename (f (fileStatGetSafe table filename).2) =
      FiniteMap.modify table filename fun stat => f (stat.getD initFileStat) := by
  unfold FiniteMap.modify fileStatGetSafe fileStatGet
  cases h : table.lookup filename with
  | none => exact Finmap.insert_insert table
  | some tmp => rfl

/-- `file_stat_incr_open`. -/
def fileStatIncrOpen (table : FileStatTable) (filename : CString) (timeNs : CULongLong) :
    FileStatTable :=
  let (table, tmp) := fileStatGetSafe table filename
  table.insert filename { tmp with openStats := tmp.openStats.incr timeNs }

/-- `file_stat_incr_close`. -/
def fileStatIncrClose (table : FileStatTable) (filename : CString) (timeNs : CULongLong) :
    FileStatTable :=
  let (table, tmp) := fileStatGetSafe table filename
  table.insert filename { tmp with closeStats := tmp.closeStats.incr timeNs }

/-- `bytes / (time_ns / 1000000000.0)`. -/
def bytesPerSecond (bytes : CLong) (timeNs : CULongLong) : Rate :=
  if timeNs = 0 then ⊤ else ((bytes.toInt * 1000000000 / timeNs.toNat : ℚ) : WithTop ℚ)

/-- One more event in the histogram, under a new key where there was none. -/
def incrBlocks (blocks : Blocks) (bytes : CLong) : Blocks :=
  match blocks.lookup (toCInt bytes) with
  | some (key, count) => blocks.insert (toCInt bytes) (key, count + 1)
  | none => blocks.insert (toCInt bytes) (bytes, 1)

/-- `file_stat_incr_rw`. -/
def fileStatIncrRw (stat : ReadWriteStat) (timeNs : CULongLong) (bytes : CLong) :
    ReadWriteStat where
  totalNs := stat.totalNs + timeNs
  totalB := if 0 < bytes.toInt then stat.totalB + bytes else stat.totalB
  minBps :=
    if 0 < bytes.toInt ∧ bytesPerSecond bytes timeNs < stat.minBps then
      bytesPerSecond bytes timeNs
    else stat.minBps
  maxBps :=
    if 0 < bytes.toInt ∧ stat.maxBps < bytesPerSecond bytes timeNs then
      bytesPerSecond bytes timeNs
    else stat.maxBps
  blocks := incrBlocks stat.blocks bytes

/-- `file_stat_incr_read`. -/
def fileStatIncrRead (table : FileStatTable) (filename : CString) (timeNs : CULongLong)
    (bytes : CLong) : FileStatTable :=
  let (table, tmp) := fileStatGetSafe table filename
  table.insert filename { tmp with readStats := fileStatIncrRw tmp.readStats timeNs bytes }

/-- `file_stat_incr_write`. -/
def fileStatIncrWrite (table : FileStatTable) (filename : CString) (timeNs : CULongLong)
    (bytes : CLong) : FileStatTable :=
  let (table, tmp) := fileStatGetSafe table filename
  table.insert filename { tmp with writeStats := fileStatIncrRw tmp.writeStats timeNs bytes }

/-! ### Merging -/

/-- `merge_open_close`. -/
def mergeOpenClose (stat1 stat2 : OpenCloseStat) : OpenCloseStat where
  count := stat1.count + stat2.count
  minNs := if stat2.minNs < stat1.minNs then stat2.minNs else stat1.minNs
  maxNs := if stat1.maxNs < stat2.maxNs then stat2.maxNs else stat1.maxNs
  totalNs := stat1.totalNs + stat2.totalNs

/-- `merge_read_write`: everything but the histogram. -/
def mergeReadWrite (stat1 stat2 : ReadWriteStat) : ReadWriteStat :=
  { stat1 with
    totalB := stat1.totalB + stat2.totalB
    totalNs := stat1.totalNs + stat2.totalNs
    minBps := if stat2.minBps < stat1.minBps then stat2.minBps else stat1.minBps
    maxBps := if stat1.maxBps < stat2.maxBps then stat2.maxBps else stat1.maxBps }

/-- The loop body of `merge_blocks`: the count of a key of the second histogram is
added to that of the key in the first, which is made where it is missing. -/
def mergeBlocksEntry (blocks1 : Blocks) (low : CInt) (entry : CLong × CULongLong) : Blocks :=
  match blocks1.lookup low with
  | some (key, count1) => blocks1.insert low (key, count1 + entry.2)
  | none => (blocks1.insert low (entry.1, 0)).insert low (entry.1, 0 + entry.2)

/-- The entry of a histogram after `merge_blocks`. -/
def mergedBlock (entry : CLong × CULongLong) : Option (CLong × CULongLong) → CLong × CULongLong
  | some (key, count1) => (key, count1 + entry.2)
  | none => (entry.1, 0 + entry.2)

theorem mergeBlocksEntry_eq (blocks1 : Blocks) (low : CInt) (entry : CLong × CULongLong) :
    mergeBlocksEntry blocks1 low entry = FiniteMap.modify blocks1 low (mergedBlock entry) := by
  unfold mergeBlocksEntry FiniteMap.modify
  cases blocks1.lookup low with
  | none => exact Finmap.insert_insert blocks1
  | some block => rfl

theorem mergeBlocksEntry_exchangeable : FiniteMap.Exchangeable mergeBlocksEntry := by
  intro blocks1 low entry low' entry' h
  simp only [mergeBlocksEntry_eq]
  exact FiniteMap.modify_comm h _ _ _

/-- `merge_blocks`. -/
def mergeBlocks (blocks1 blocks2 : Blocks) : Blocks :=
  FiniteMap.walk mergeBlocksEntry mergeBlocksEntry_exchangeable blocks2 blocks1

/-- What the loop body of `file_state_merge` does to the statistics of a file. -/
def FileStat.merge (stat1 stat2 : FileStat) : FileStat where
  openStats := mergeOpenClose stat1.openStats stat2.openStats
  closeStats := mergeOpenClose stat1.closeStats stat2.closeStats
  readStats := { mergeReadWrite stat1.readStats stat2.readStats with
    blocks := mergeBlocks stat1.readStats.blocks stat2.readStats.blocks }
  writeStats := { mergeReadWrite stat1.writeStats stat2.writeStats with
    blocks := mergeBlocks stat1.writeStats.blocks stat2.writeStats.blocks }

/-- The loop body of `file_state_merge`. -/
def fileStateMergeEntry (table1 : FileStatTable) (file : CString) (stat2 : FileStat) :
    FileStatTable :=
  let (table1, stat1) := fileStatGetSafe table1 file
  table1.insert file (stat1.merge stat2)

theorem fileStateMergeEntry_eq (table1 : FileStatTable) (file : CString) (stat2 : FileStat) :
    fileStateMergeEntry table1 file stat2 =
      FiniteMap.modify table1 file fun stat1 => (stat1.getD initFileStat).merge stat2 :=
  insert_fileStatGetSafe table1 file fun stat1 => stat1.merge stat2

theorem fileStateMergeEntry_exchangeable : FiniteMap.Exchangeable fileStateMergeEntry := by
  intro table1 file stat2 file' stat2' h
  simp only [fileStateMergeEntry_eq]
  exact FiniteMap.modify_comm h _ _ _

/-- `file_state_merge`: the first table takes in the second. -/
def fileStateMerge (table1 table2 : FileStatTable) : FileStatTable :=
  FiniteMap.walk fileStateMergeEntry fileStateMergeEntry_exchangeable table2 table1

end Iotrace
