/-
# The memory of the file statistics

`src/file_stat.c` once more, with the blocks that it allocates.  An entry of a table is a
copy of the file's name and a `file_stat`; this has two more hash tables, its histograms,
whose entries are a `ssize_t` and a count, allocated one by one.  Destroying the table of
the files calls `free_single_file_stat` for each of them, which destroys the histograms
first.

Every access asks whether the block is there and holds what it is read as, so that nothing
is used, or freed, after its release unless a function ends in `useAfterFree`.  The tables
of GLib are visited in an order that is given (`Order`), by the iterators and when they are
destroyed.  A histogram is a table whose keys and values are blocks of their own, as in
`HeapTable`.
-/

import Iotrace.FileStat
import Iotrace.Tracee
import Iotrace.Library.HeapTable

namespace Iotrace

namespace StatMalloc

/-- The two sides of a `file_stat` that have a histogram. -/
inductive Side where
  | read
  | write
  deriving DecidableEq

/-- `read_write_stat`, with the address of its table. -/
structure ReadWriteStat where
  totalB : CULongLong
  totalNs : CULongLong
  minBps : Rate
  maxBps : Rate
  blocks : ℕ

/-- `file_stat`. -/
structure FileStat where
  openStats : OpenCloseStat
  closeStats : OpenCloseStat
  readStats : ReadWriteStat
  writeStats : ReadWriteStat

/-- `&stat->read_stats` or `&stat->write_stats`. -/
def FileStat.side (stat : FileStat) : Side → ReadWriteStat
  | .read => stat.readStats
  | .write => stat.writeStats

/-- An assignment to `stat->read_stats` or `stat->write_stats`. -/
def FileStat.setSide (stat : FileStat) (d : Side) (s : ReadWriteStat) : FileStat :=
  match d with
  | .read => { stat with readStats := s }
  | .write => { stat with writeStats := s }

/-- A block of memory that `file_stat.c` has allocated. -/
inductive Block where
  /-- `malloc(sizeof(file_stat))`, before `init_file_stat`. -/
  | raw
  /-- A name: `malloc(sizeof(char) * (len + 1))`. -/
  | chars (s : CString)
  /-- `file_stat`. -/
  | stat (stat : FileStat)
  /-- A histogram: `g_hash_table_new_full`. -/
  | blocks (table : HeapTable.Addresses CInt)
  /-- A key of a histogram: `malloc(sizeof(ssize_t))`. -/
  | bytes (key : CLong)
  /-- A count in a histogram: `malloc(sizeof(unsigned long))`. -/
  | count (n : CULongLong)

/-- A table: under each name the addresses of the name and of the statistics. -/
abbrev HashTable := Finmap fun _ : CString => ℕ × ℕ

/-- An entry of a table, as an iterator gives it. -/
abbrev Visit := Sigma fun _ : CString => ℕ × ℕ

/-- An entry of a histogram, as an iterator gives it. -/
abbrev BlockVisit := HeapTable.Visit CInt

/-- For the address of each histogram, the order in which its entries are visited. -/
abbrev Order := ℕ → List BlockVisit

/-- A block as a name; none, if it is another one. -/
def Block.asChars : Block → Option CString
  | .chars s => some s
  | _ => none

/-- A block as statistics that have been initialised; none, if it is another one. -/
def Block.asStat : Block → Option FileStat
  | .stat s => some s
  | _ => none

/-- A block as a histogram; none, if it is another one. -/
def Block.asBlocks : Block → Option (HeapTable.Addresses CInt)
  | .blocks table => some table
  | _ => none

/-- A block as a key of a histogram; none, if it is another one. -/
def Block.asBytes : Block → Option CLong
  | .bytes key => some key
  | _ => none

/-- A block as a count in a histogram; none, if it is another one. -/
def Block.asCount : Block → Option CULongLong
  | .count n => some n
  | _ => none

/-- The blocks of a histogram: of a `ssize_t` it sees the low 32 bits. -/
def histogram : HeapTable.Layout Abort Block CInt CLong CULongLong where
  bad := .useAfterFree
  ofTable := .blocks
  ofKey := .bytes
  ofValue := .count
  asTable := Block.asBlocks
  asKey := Block.asBytes
  asValue := Block.asCount
  hash := toCInt
  asTable_ofTable _ := rfl
  asKey_ofKey _ := rfl
  asValue_ofValue _ := rfl

/-- An access to a block, which must hold what it is read as. -/
abbrev access {γ : Type} (as : Block → Option γ) (m : Arena Block) (a : ℕ) : Except Abort γ :=
  HeapTable.access .useAfterFree as m a

/-- `free`. -/
abbrev free (m : Arena Block) (a : ℕ) : Except Abort (Arena Block) :=
  HeapTable.release .useAfterFree m a

/-! ### Entries -/

/-- `init_file_stat`. -/
def initFileStat (m : Arena Block) (stat : ℕ) : Arena Block :=
  let readBlocks := m.next
  let m := m.alloc (.blocks ∅)
  let writeBlocks := m.next
  let m := m.alloc (.blocks ∅)
  let init (blocks : ℕ) : ReadWriteStat :=
    ⟨0, 0, MIN_BPS_INITIAL, ((0 : ℚ) : WithTop ℚ), blocks⟩
  m.write stat (.stat ⟨⟨0, 0, MIN_NS_INITIAL, 0⟩, ⟨0, 0, MIN_NS_INITIAL, 0⟩, init readBlocks,
    init writeBlocks⟩)

/-- `free_single_file_stat`. -/
def freeSingleFileStat (order : Order) (m : Arena Block) (stat : ℕ) :
    Except Abort (Arena Block) := do
  let tmp ← access Block.asStat m stat
  let m ← histogram.destroy m tmp.readStats.blocks (order tmp.readStats.blocks)
  let m ← histogram.destroy m tmp.writeStats.blocks (order tmp.writeStats.blocks)
  free m stat

/-- `g_hash_table_insert`: where the key is there already, the new key and the old value
are freed. -/
def gHashTableInsert (order : Order) (m : Arena Block) (table : HashTable) (key value : ℕ) :
    Except Abort (Arena Block × HashTable) := do
  let name ← access Block.asChars m key
  match table.lookup name with
  | some (oldKey, oldValue) => do
    let m ← free m key
    let m ← freeSingleFileStat order m oldValue
    .ok (m, table.insert name (oldKey, value))
  | none => .ok (m, table.insert name (key, value))

/-- `stat_table_insert`. -/
def statTableInsert (order : Order) (m : Arena Block) (table : HashTable) (filename : CString) :
    Except Abort (Arena Block × HashTable) :=
  let nameMem := m.next
  let m := m.alloc (.chars filename)
  let statMem := m.next
  let m := m.alloc .raw
  let m := initFileStat m statMem
  gHashTableInsert order m table nameMem statMem

/-- `file_stat_create`. -/
def fileStatCreate (order : Order) (m : Arena Block) : Except Abort (Arena Block × HashTable) :=
  statTableInsert order m ∅ (cstr "NULL")

/-- `file_stat_get`: the address of the statistics. -/
def fileStatGet (table : HashTable) (filename : CString) : Option ℕ :=
  (table.lookup filename).map Prod.snd

/-- `file_stat_get_safe`. -/
def fileStatGetSafe (order : Order) (m : Arena Block) (table : HashTable) (filename : CString) :
    Except Abort (Arena Block × HashTable × ℕ) :=
  match fileStatGet table filename with
  | some tmp => .ok (m, table, tmp)
  | none => do
    let (m, table) ← statTableInsert order m table filename
    match fileStatGet table filename with
    | some tmp => .ok (m, table, tmp)
    | none => .error .nullDereference

/-! ### Recording -/

/-- Assignments to the members of the `file_stat` at `tmp`. -/
def assign (f : FileStat → FileStat) (m : Arena Block) (tmp : ℕ) :
    Except Abort (Arena Block) := do
  let stat ← access Block.asStat m tmp
  .ok (m.write tmp (.stat (f stat)))

/-- `file_stat_incr_open`. -/
def fileStatIncrOpen (order : Order) (m : Arena Block) (table : HashTable) (filename : CString)
    (timeNs : CULongLong) : Except Abort (Arena Block × HashTable) := do
  let (m, table, tmp) ← fileStatGetSafe order m table filename
  let m ← assign (fun stat => { stat with openStats := stat.openStats.incr timeNs }) m tmp
  .ok (m, table)

/-- `file_stat_incr_close`. -/
def fileStatIncrClose (order : Order) (m : Arena Block) (table : HashTable) (filename : CString)
    (timeNs : CULongLong) : Except Abort (Arena Block × HashTable) := do
  let (m, table, tmp) ← fileStatGetSafe order m table filename
  let m ← assign (fun stat => { stat with closeStats := stat.closeStats.incr timeNs }) m tmp
  .ok (m, table)

/-- The numbers that `file_stat_incr_rw` changes. -/
def ReadWriteStat.incr (stat : ReadWriteStat) (timeNs : CULongLong) (bytes : CLong) :
    ReadWriteStat :=
  let bps := bytesPerSecond bytes timeNs
  { stat with
    totalNs := stat.totalNs + timeNs
    totalB := if 0 < bytes.toInt then stat.totalB + bytes else stat.totalB
    minBps := if 0 < bytes.toInt ∧ bps < stat.minBps then bps else stat.minBps
    maxBps := if 0 < bytes.toInt ∧ stat.maxBps < bps then bps else stat.maxBps }

/-- `file_stat_incr_rw`, with the pointer to one side of the `file_stat` at `tmp`. -/
def fileStatIncrRw (m : Arena Block) (tmp : ℕ) (d : Side) (timeNs : CULongLong) (bytes : CLong) :
    Except Abort (Arena Block) := do
  let stat ← access Block.asStat m tmp
  let m := m.write tmp (.stat (stat.setSide d ((stat.side d).incr timeNs bytes)))
  let (m, count) ← histogram.valueFor m (stat.side d).blocks bytes 0
  histogram.update m count (· + 1)

/-- `file_stat_incr_read`. -/
def fileStatIncrRead (order : Order) (m : Arena Block) (table : HashTable) (filename : CString)
    (timeNs : CULongLong) (bytes : CLong) : Except Abort (Arena Block × HashTable) := do
  let (m, table, tmp) ← fileStatGetSafe order m table filename
  let m ← fileStatIncrRw m tmp .read timeNs bytes
  .ok (m, table)

/-- `file_stat_incr_write`. -/
def fileStatIncrWrite (order : Order) (m : Arena Block) (table : HashTable) (filename : CString)
    (timeNs : CULongLong) (bytes : CLong) : Except Abort (Arena Block × HashTable) := do
  let (m, table, tmp) ← fileStatGetSafe order m table filename
  let m ← fileStatIncrRw m tmp .write timeNs bytes
  .ok (m, table)

/-! ### Merging -/

/-- `merge_read_write`. -/
def mergeReadWrite (stat1 stat2 : ReadWriteStat) : ReadWriteStat :=
  { stat1 with
    totalB := stat1.totalB + stat2.totalB
    totalNs := stat1.totalNs + stat2.totalNs
    minBps := if stat2.minBps < stat1.minBps then stat2.minBps else stat1.minBps
    maxBps := if stat1.maxBps < stat2.maxBps then stat2.maxBps else stat1.maxBps }

/-- `merge_blocks`. -/
def mergeBlocks (order : Order) (m : Arena Block) (blocks1 blocks2 : ℕ) :
    Except Abort (Arena Block) :=
  histogram.merge 0 (· + ·) m blocks1 blocks2 (order blocks2)

/-- `merge_open_close` for the opens and the closes of two `file_stat`s. -/
def mergeCounts (m : Arena Block) (stat1 stat2 : ℕ) : Except Abort (Arena Block) := do
  let v1 ← access Block.asStat m stat1
  let v2 ← access Block.asStat m stat2
  .ok (m.write stat1 (.stat { v1 with
    openStats := mergeOpenClose v1.openStats v2.openStats
    closeStats := mergeOpenClose v1.closeStats v2.closeStats }))

/-- `merge_read_write` and `merge_blocks` for one side of two `file_stat`s. -/
def mergeSide (order : Order) (d : Side) (m : Arena Block) (stat1 stat2 : ℕ) :
    Except Abort (Arena Block) := do
  let v1 ← access Block.asStat m stat1
  let v2 ← access Block.asStat m stat2
  let m := m.write stat1 (.stat (v1.setSide d (mergeReadWrite (v1.side d) (v2.side d))))
  mergeBlocks order m (v1.side d).blocks (v2.side d).blocks

/-- The loop body of `file_state_merge`. -/
def fileStateMergeEntry (order : Order) (s : Arena Block × HashTable) (e : Visit) :
    Except Abort (Arena Block × HashTable) := do
  let file ← access Block.asChars s.1 e.2.1
  let (m, table, stat1) ← fileStatGetSafe order s.1 s.2 file
  let m ← mergeCounts m stat1 e.2.2
  let m ← mergeSide order .read m stat1 e.2.2
  let m ← mergeSide order .write m stat1 e.2.2
  .ok (m, table)

/-- `file_state_merge`: the visits are those of the second table. -/
def fileStateMerge (order : Order) (m : Arena Block) (table : HashTable) (visits : List Visit) :
    Except Abort (Arena Block × HashTable) :=
  visits.foldlM (fileStateMergeEntry order) (m, table)

/-! ### Releasing and reading -/

/-- What `g_hash_table_destroy` does to an entry. -/
def freeEntry (order : Order) (m : Arena Block) (e : Visit) : Except Abort (Arena Block) := do
  let m ← free m e.2.1
  freeSingleFileStat order m e.2.2

/-- `file_stat_free`. -/
def fileStatFree (order : Order) (m : Arena Block) (visits : List Visit) :
    Except Abort (Arena Block) :=
  visits.foldlM (freeEntry order) m

/-- A side of a `file_stat`, with the histogram as an iterator goes through it. -/
def readSide (order : Order) (m : Arena Block) (stat : ReadWriteStat) :
    Except Abort Iotrace.ReadWriteStat := do
  let blocks ← histogram.read Prod.mk m stat.blocks (order stat.blocks)
  .ok ⟨stat.totalB, stat.totalNs, stat.minBps, stat.maxBps, blocks⟩

/-- What an iterator finds at an entry, as `file_stat_print_all` reads it. -/
def readEntry (order : Order) (m : Arena Block) (t : FileStatTable) (e : Visit) :
    Except Abort FileStatTable := do
  let file ← access Block.asChars m e.2.1
  let stat ← access Block.asStat m e.2.2
  let readStats ← readSide order m stat.readStats
  let writeStats ← readSide order m stat.writeStats
  .ok (t.insert file ⟨stat.openStats, stat.closeStats, readStats, writeStats⟩)

/-- A table as iterators go through it. -/
def readTable (order : Order) (m : Arena Block) (visits : List Visit) :
    Except Abort FileStatTable :=
  visits.foldlM (readEntry order m) ∅

end StatMalloc

end Iotrace
