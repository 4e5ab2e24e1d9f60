/-
# Recording in several tables, and merging them

Every tracer thread records in two tables of its own and merges them into the main
tables when its tracee has ended (`start_tracer` in `src/main.c`).  This file reads
`src/file_stat.c` and `src/unconsidered_syscall_stat.c` as accumulations in the
sense of `Iotrace.Library.Accumulation`, from the counters of a file up to the two
tables: at every level merging keeps up with recording (`fileTables_lawful`,
`syscallTables_lawful`), and the events commute.

The minima start from sentinels, which merging compares like any other value; they
are neutral because no minimum ever exceeds its sentinel.  Keys of a histogram that
share their low 32 bits share an entry, under whichever key came first, so reads
and writes commute as long as their results are in the range that the kernel
returns.

`merge_eq_record` is the result: the tables of any number of threads, merged in any
order, are the table of one thread that recorded everything.
-/

import Iotrace.FileStat
import Iotrace.UnconsideredSyscallStat
import Iotrace.Library.Accumulation

namespace Iotrace

/-! ### Events -/

/-- A call of `file_stat_incr_open`, `_close`, `_read` or `_write`. -/
inductive FileEvent where
  | incrOpen (filename : CString) (timeNs : CULongLong)
  | incrClose (filename : CString) (timeNs : CULongLong)
  | incrRead (filename : CString) (timeNs : CULongLong) (bytes : CLong)
  | incrWrite (filename : CString) (timeNs : CULongLong) (bytes : CLong)

/-- The file of an event. -/
def FileEvent.filename : FileEvent → CString
  | incrOpen filename _ | incrClose filename _ => filename
  | incrRead filename _ _ | incrWrite filename _ _ => filename

/-- The call. -/
def recordFile (table : FileStatTable) : FileEvent → FileStatTable
  | .incrOpen filename timeNs => fileStatIncrOpen table filename timeNs
  | .incrClose filename timeNs => fileStatIncrClose table filename timeNs
  | .incrRead filename timeNs bytes => fileStatIncrRead table filename timeNs bytes
  | .incrWrite filename timeNs bytes => fileStatIncrWrite table filename timeNs bytes

/-- A call of `syscall_stat_incr`. -/
structure SyscallEvent where
  syscall : CInt
  timeNs : CULongLong

/-- The call. -/
def recordSyscall (table : SyscallTable) (e : SyscallEvent) : SyscallTable :=
  syscallStatIncr table e.syscall e.timeNs

/-- A result that Linux returns from a read or a write: at most `MAX_RW_COUNT`
bytes, or a negated error number. -/
def ReadWriteResult (bytes : CLong) : Prop := -4095 ≤ bytes.toInt ∧ bytes.toInt ≤ 0x7ffff000

/-- The results of reads and writes are in the range. -/
def FileEvent.InRange : FileEvent → Prop
  | incrRead _ _ bytes | incrWrite _ _ bytes => ReadWriteResult bytes
  | _ => True

/-! ### Opens and closes -/

attribute [ext] OpenCloseStat ReadWriteStat FileStat

/-- The opens, or the closes, of a file. -/
def openCloseAcc : Accumulation OpenCloseStat CULongLong :=
  ⟨initOpenCloseStat, OpenCloseStat.incr, mergeOpenClose⟩

/-- No minimum exceeds the sentinel. -/
def OpenCloseStat.Ok (stat : OpenCloseStat) : Prop := stat.minNs ≤ MIN_NS_INITIAL

/-- The smaller of two 64-bit numbers, as an `if` finds it. -/
theorem toNat_ite_lt (a b : CULongLong) : (if b < a then b else a).toNat = min a.toNat b.toNat := by
  split_ifs with h
  · rw [BitVec.lt_def] at h
    omega
  · rw [BitVec.lt_def] at h
    omega

/-- The larger of two 64-bit numbers, as an `if` finds it. -/
theorem toNat_ite_gt (a b : CULongLong) : (if a < b then b else a).toNat = max a.toNat b.toNat := by
  split_ifs with h
  · rw [BitVec.lt_def] at h
    omega
  · rw [BitVec.lt_def] at h
    omega

/-- `merge_open_close` takes in the calls of the other entry. -/
theorem openClose_lawful : openCloseAcc.Lawful OpenCloseStat.Ok where
  fresh_ok := BitVec.le_refl _
  record_ok stat timeNs h := by
    rw [OpenCloseStat.Ok, BitVec.le_def] at h ⊢
    change (if timeNs < stat.minNs then timeNs else stat.minNs).toNat ≤ _
    rw [toNat_ite_lt]
    omega
  merge_fresh stat h := by
    rw [OpenCloseStat.Ok, BitVec.le_def] at h
    refine OpenCloseStat.ext (BitVec.add_zero _) (BitVec.add_zero _) ?_ ?_
    · refine BitVec.eq_of_toNat_eq ((toNat_ite_lt _ _).trans ?_)
      exact min_eq_left h
    · refine BitVec.eq_of_toNat_eq ((toNat_ite_gt _ _).trans ?_)
      exact max_eq_left (Nat.zero_le _)
  merge_record stat1 stat2 timeNs _ := by
    refine OpenCloseStat.ext (BitVec.add_assoc _ _ _).symm (BitVec.add_assoc _ _ _).symm ?_ ?_
    · refine BitVec.eq_of_toNat_eq ?_
      simp only [openCloseAcc, mergeOpenClose, OpenCloseStat.incr, toNat_ite_lt]
      exact (min_assoc _ _ _).symm
    · refine BitVec.eq_of_toNat_eq ?_
      simp only [openCloseAcc, mergeOpenClose, OpenCloseStat.incr, toNat_ite_gt]
      exact (max_assoc _ _ _).symm

theorem openClose_commute (t t' : CULongLong) : openCloseAcc.Commute t t' := by
  intro stat
  refine OpenCloseStat.ext rfl (add_right_comm _ _ _) ?_ ?_
  · refine BitVec.eq_of_toNat_eq ?_
    simp only [openCloseAcc, OpenCloseStat.incr, toNat_ite_lt]
    exact min_right_comm _ _ _
  · refine BitVec.eq_of_toNat_eq ?_
    simp only [openCloseAcc, OpenCloseStat.incr, toNat_ite_gt]
    exact max_right_comm _ _ _

/-! ### Histograms -/

/-- An entry of a histogram. -/
def blockCell : Cell (CLong × CULongLong) CLong where
  record
    | some (key, count), _ => (key, count + 1)
    | none, bytes => (bytes, 1)
  merge block entry := mergedBlock entry block

/-- The histogram of a file. -/
def blocksAcc : Accumulation Blocks CLong := ⟨∅, incrBlocks, mergeBlocks⟩

theorem blocksAcc_eq : blocksAcc = blockCell.table toCInt ∅ := by
  have hrecord : incrBlocks = (blockCell.table toCInt ∅).record := by
    funext blocks bytes
    change _ = FiniteMap.modify blocks (toCInt bytes) fun block => blockCell.record block bytes
    unfold incrBlocks FiniteMap.modify
    cases blocks.lookup (toCInt bytes) with
    | none => rfl
    | some block => rfl
  have hentry : mergeBlocksEntry = fun blocks1 low entry =>
      FiniteMap.modify blocks1 low fun block => blockCell.merge block entry :=
    funext fun blocks1 => funext fun low => funext fun entry =>
      mergeBlocksEntry_eq blocks1 low entry
  have hmerge : mergeBlocks = (blockCell.table toCInt ∅).merge := by
    unfold mergeBlocks Cell.table
    simp only [hentry]
  rw [blocksAcc, hrecord, hmerge]
  rfl

theorem blockCell_lawful : blockCell.Lawful fun _ => True where
  record_ok _ _ _ := trivial
  merge_record block entry _ _ := by
    cases block with
    | none => exact Prod.ext rfl (BitVec.add_assoc _ _ _).symm
    | some block => exact Prod.ext rfl (BitVec.add_assoc _ _ _).symm
  merge_record_none block _ _ := by
    cases block with
    | none => exact Prod.ext rfl (BitVec.zero_add _)
    | some block => rfl

theorem blocks_lawful : blocksAcc.Lawful (Cell.TableOk (fun _ => True) ∅) := by
  rw [blocksAcc_eq]
  refine Cell.table_lawful blockCell_lawful fun k _ h => ?_
  rw [Finmap.lookup_empty] at h
  cases h

/-- In the range of the kernel, the low 32 bits tell results apart. -/
theorem toCInt_inj {a b : CLong} (ha : ReadWriteResult a) (hb : ReadWriteResult b)
    (h : toCInt a = toCInt b) : a = b := by
  have hlow := congrArg BitVec.toNat h
  rw [toCInt, toCInt, BitVec.toNat_setWidth, BitVec.toNat_setWidth] at hlow
  obtain ⟨ha₁, ha₂⟩ := ha
  obtain ⟨hb₁, hb₂⟩ := hb
  rw [BitVec.toInt_eq_toNat_cond] at ha₁ ha₂ hb₁ hb₂
  refine BitVec.eq_of_toNat_eq ?_
  have := a.isLt
  have := b.isLt
  split_ifs at ha₁ ha₂ hb₁ hb₂ <;> omega

/-- Results in the range of `ssize_t` transfers are counted in any order. -/
theorem blocks_commute {b b' : CLong} (hb : ReadWriteResult b) (hb' : ReadWriteResult b') :
    blocksAcc.Commute b b' := by
  rw [blocksAcc_eq]
  refine Cell.table_commute fun h block => ?_
  rw [toCInt_inj hb hb' h]

/-! ### Reads and writes -/

/-- The reads, or the writes, of a file: a time and a result. -/
def readWriteAcc : Accumulation ReadWriteStat (CULongLong × CLong) where
  fresh := initReadWriteStat
  record stat e := fileStatIncrRw stat e.1 e.2
  merge stat1 stat2 :=
    { mergeReadWrite stat1 stat2 with blocks := mergeBlocks stat1.blocks stat2.blocks }

/-- No minimum exceeds the sentinel, and no maximum is negative. -/
structure ReadWriteStat.Ok (stat : ReadWriteStat) : Prop where
  minBps : stat.minBps ≤ MIN_BPS_INITIAL
  maxBps : ((0 : ℚ) : Rate) ≤ stat.maxBps
  blocks : Cell.TableOk (fun _ => True) ∅ stat.blocks

theorem ite_and_lt (p : Prop) [Decidable p] (a b : Rate) :
    (if p ∧ b < a then b else a) = if p then min a b else a := by
  by_cases hp : p
  · simp only [hp, true_and, if_true]
    exact (min_def_lt' a b).symm
  · simp only [hp, false_and, if_false]

theorem ite_and_gt (p : Prop) [Decidable p] (a b : Rate) :
    (if p ∧ a < b then b else a) = if p then max a b else a := by
  by_cases hp : p
  · simp only [hp, true_and, if_true]
    exact (max_def_lt a b).symm
  · simp only [hp, false_and, if_false]

theorem readWrite_minBps (stat : ReadWriteStat) (e : CULongLong × CLong) :
    (readWriteAcc.record stat e).minBps =
      if 0 < e.2.toInt then min stat.minBps (bytesPerSecond e.2 e.1) else stat.minBps :=
  ite_and_lt _ _ _

theorem readWrite_maxBps (stat : ReadWriteStat) (e : CULongLong × CLong) :
    (readWriteAcc.record stat e).maxBps =
      if 0 < e.2.toInt then max stat.maxBps (bytesPerSecond e.2 e.1) else stat.maxBps :=
  ite_and_gt _ _ _

theorem readWrite_blocks (stat : ReadWriteStat) (e : CULongLong × CLong) :
    (readWriteAcc.record stat e).blocks = blocksAcc.record stat.blocks e.2 := rfl

theorem readWrite_merge_blocks (stat1 stat2 : ReadWriteStat) :
    (readWriteAcc.merge stat1 stat2).blocks = blocksAcc.merge stat1.blocks stat2.blocks := rfl

theorem readWrite_merge_minBps (stat1 stat2 : ReadWriteStat) :
    (readWriteAcc.merge stat1 stat2).minBps = min stat1.minBps stat2.minBps :=
  (min_def_lt' _ _).symm

theorem readWrite_merge_maxBps (stat1 stat2 : ReadWriteStat) :
    (readWriteAcc.merge stat1 stat2).maxBps = max stat1.maxBps stat2.maxBps :=
  (max_def_lt _ _).symm

/-- `merge_read_write` takes in the calls of the other entry. -/
theorem readWrite_lawful : readWriteAcc.Lawful ReadWriteStat.Ok where
  fresh_ok := ⟨le_refl _, le_refl _, blocks_lawful.fresh_ok⟩
  record_ok stat e h := by
    refine ⟨?_, ?_, ?_⟩
    · rw [readWrite_minBps]
      split_ifs
      · exact (min_le_left _ _).trans h.minBps
      · exact h.minBps
    · rw [readWrite_maxBps]
      split_ifs
      · exact h.maxBps.trans (le_max_left _ _)
      · exact h.maxBps
    · rw [readWrite_blocks]
      exact blocks_lawful.record_ok _ _ h.blocks
  merge_fresh stat h := by
    refine ReadWriteStat.ext (BitVec.add_zero _) (BitVec.add_zero _) ?_ ?_ ?_
    · rw [readWrite_merge_minBps]
      exact min_eq_left h.minBps
    · rw [readWrite_merge_maxBps]
      exact max_eq_left h.maxBps
    · rw [readWrite_merge_blocks]
      exact blocks_lawful.merge_fresh _ h.blocks
  merge_record stat1 stat2 e h := by
    refine ReadWriteStat.ext ?_ (add_assoc _ _ _).symm ?_ ?_ ?_
    · simp only [readWriteAcc, mergeReadWrite, fileStatIncrRw]
      split_ifs
      · exact (add_assoc _ _ _).symm
      · rfl
    · rw [readWrite_merge_minBps, readWrite_minBps, readWrite_minBps, readWrite_merge_minBps]
      split_ifs
      · exact (min_assoc _ _ _).symm
      · rfl
    · rw [readWrite_merge_maxBps, readWrite_maxBps, readWrite_maxBps, readWrite_merge_maxBps]
      split_ifs
      · exact (max_assoc _ _ _).symm
      · rfl
    · rw [readWrite_merge_blocks, readWrite_blocks, readWrite_blocks, readWrite_merge_blocks]
      exact blocks_lawful.merge_record _ _ _ h.blocks

theorem readWrite_commute (e e' : CULongLong × CLong) (he : ReadWriteResult e.2)
    (he' : ReadWriteResult e'.2) : readWriteAcc.Commute e e' := by
  intro stat
  refine ReadWriteStat.ext ?_ (add_right_comm _ _ _) ?_ ?_ ?_
  · simp only [readWriteAcc, fileStatIncrRw]
    split_ifs
    · exact add_right_comm _ _ _
    · rfl
    · rfl
    · rfl
  · simp only [readWrite_minBps]
    split_ifs
    · exact min_right_comm _ _ _
    · rfl
    · rfl
    · rfl
  · simp only [readWrite_maxBps]
    split_ifs
    · exact max_right_comm _ _ _
    · rfl
    · rfl
    · rfl
  · simp only [readWrite_blocks]
    exact blocks_commute he he' stat.blocks

/-! ### The statistics of a file -/

/-- An event changes the statistics of its file. -/
def FileStat.record (stat : FileStat) : FileEvent → FileStat
  | .incrOpen _ timeNs => { stat with openStats := openCloseAcc.record stat.openStats timeNs }
  | .incrClose _ timeNs => { stat with closeStats := openCloseAcc.record stat.closeStats timeNs }
  | .incrRead _ timeNs bytes =>
    { stat with readStats := readWriteAcc.record stat.readStats (timeNs, bytes) }
  | .incrWrite _ timeNs bytes =>
    { stat with writeStats := readWriteAcc.record stat.writeStats (timeNs, bytes) }

/-- The statistics of a file. -/
def fileStatAcc : Accumulation FileStat FileEvent := ⟨initFileStat, FileStat.record, FileStat.merge⟩

/-- The four parts are as recording leaves them. -/
structure FileStat.Ok (stat : FileStat) : Prop where
  openStats : stat.openStats.Ok
  closeStats : stat.closeStats.Ok
  readStats : stat.readStats.Ok
  writeStats : stat.writeStats.Ok

theorem fileStat_lawful : fileStatAcc.Lawful FileStat.Ok where
  fresh_ok := ⟨openClose_lawful.fresh_ok, openClose_lawful.fresh_ok, readWrite_lawful.fresh_ok,
    readWrite_lawful.fresh_ok⟩
  record_ok stat e h := by
    cases e with
    | incrOpen filename timeNs =>
        exact { h with openStats := openClose_lawful.record_ok _ timeNs h.openStats }
    | incrClose filename timeNs =>
        exact { h with closeStats := openClose_lawful.record_ok _ timeNs h.closeStats }
    | incrRead filename timeNs bytes =>
        exact { h with readStats := readWrite_lawful.record_ok _ (timeNs, bytes) h.readStats }
    | incrWrite filename timeNs bytes =>
        exact { h with writeStats := readWrite_lawful.record_ok _ (timeNs, bytes) h.writeStats }
  merge_fresh stat h := FileStat.ext (openClose_lawful.merge_fresh _ h.openStats)
    (openClose_lawful.merge_fresh _ h.closeStats) (readWrite_lawful.merge_fresh _ h.readStats)
    (readWrite_lawful.merge_fresh _ h.writeStats)
  merge_record stat1 stat2 e h := by
    cases e with
    | incrOpen filename timeNs =>
        exact FileStat.ext (openClose_lawful.merge_record _ _ _ h.openStats) rfl rfl rfl
    | incrClose filename timeNs =>
        exact FileStat.ext rfl (openClose_lawful.merge_record _ _ _ h.closeStats) rfl rfl
    | incrRead filename timeNs bytes =>
        exact FileStat.ext rfl rfl (readWrite_lawful.merge_record _ _ _ h.readStats) rfl
    | incrWrite filename timeNs bytes =>
        exact FileStat.ext rfl rfl rfl (readWrite_lawful.merge_record _ _ _ h.writeStats)

/-- Events that change different parts commute, and so do those that change one. -/
theorem FileStat.record_commute {e e' : FileEvent} (he : e.InRange) (he' : e'.InRange) :
    fileStatAcc.Commute e e' := by
  intro stat
  cases e with
  | incrOpen _ timeNs =>
      cases e' with
      | incrOpen _ timeNs' => exact FileStat.ext (openClose_commute _ _ _) rfl rfl rfl
      | _ => rfl
  | incrClose _ timeNs =>
      cases e' with
      | incrClose _ timeNs' => exact FileStat.ext rfl (openClose_commute _ _ _) rfl rfl
      | _ => rfl
  | incrRead _ timeNs bytes =>
      cases e' with
      | incrRead _ timeNs' bytes' =>
          exact FileStat.ext rfl rfl (readWrite_commute (_, bytes) (_, bytes') he he' _) rfl
      | _ => rfl
  | incrWrite _ timeNs bytes =>
      cases e' with
      | incrWrite _ timeNs' bytes' =>
          exact FileStat.ext rfl rfl rfl (readWrite_commute (_, bytes) (_, bytes') he he' _)
      | _ => rfl

/-! ### The tables -/

/-- The table of files, as `src/file_stat.c` keeps it. -/
def fileTables : Accumulation FileStatTable FileEvent :=
  ⟨fileStatCreate, recordFile, fileStateMerge⟩

theorem fileTables_eq :
    fileTables = (Cell.ofAccumulation fileStatAcc).table FileEvent.filename fileStatCreate := by
  have hrecord : recordFile =
      ((Cell.ofAccumulation fileStatAcc).table FileEvent.filename fileStatCreate).record := by
    funext table e
    cases e with
    | incrOpen filename timeNs =>
        exact insert_fileStatGetSafe table filename (·.record (.incrOpen filename timeNs))
    | incrClose filename timeNs =>
        exact insert_fileStatGetSafe table filename (·.record (.incrClose filename timeNs))
    | incrRead filename timeNs bytes =>
        exact insert_fileStatGetSafe table filename (·.record (.incrRead filename timeNs bytes))
    | incrWrite filename timeNs bytes =>
        exact insert_fileStatGetSafe table filename (·.record (.incrWrite filename timeNs bytes))
  have hentry : fileStateMergeEntry = fun table1 file stat2 =>
      FiniteMap.modify table1 file fun stat1 =>
        (Cell.ofAccumulation fileStatAcc).merge stat1 stat2 :=
    funext fun table1 => funext fun file => funext fun stat2 =>
      fileStateMergeEntry_eq table1 file stat2
  have hmerge : fileStateMerge =
      ((Cell.ofAccumulation fileStatAcc).table FileEvent.filename fileStatCreate).merge := by
    unfold fileStateMerge Cell.table
    simp only [hentry]
  rw [fileTables, hrecord, hmerge]
  rfl

/-- All entries are as recording leaves them, and the one for unknown files is there. -/
abbrev FileStatTable.Ok (table : FileStatTable) : Prop :=
  Cell.TableOk FileStat.Ok fileStatCreate table

/-- **Merging tables of files keeps up with recording.** -/
theorem fileTables_lawful : fileTables.Lawful FileStatTable.Ok := by
  rw [fileTables_eq]
  refine Cell.table_lawful (Cell.ofAccumulation_lawful fileStat_lawful) fun file stat h => ?_
  have hstat : stat = initFileStat := by
    rw [fileStatCreate, statTableInsert, FiniteMap.lookup_insert_eq] at h
    split_ifs at h
    · exact (Option.some.inj h).symm
    · rw [Finmap.lookup_empty] at h
      cases h
  rw [hstat]
  exact ⟨fileStat_lawful.fresh_ok, fun stat hstat => fileStat_lawful.merge_fresh stat hstat⟩

/-- Events with results in range can be recorded in any order. -/
theorem fileTables_commute {e e' : FileEvent} (he : e.InRange) (he' : e'.InRange) :
    fileTables.Commute e e' := by
  rw [fileTables_eq]
  exact Cell.table_commute fun _ =>
    Cell.ofAccumulation_commute (FileStat.record_commute he he')

/-! ### What is recorded for one file -/

/-- The statistics of a file; those of a file without an entry are empty. -/
def fileStatOf (table : FileStatTable) (file : CString) : FileStat :=
  (fileStatGet table file).getD initFileStat

/-- An event changes the statistics of its file, and of no other. -/
theorem fileStatOf_record (table : FileStatTable) (e : FileEvent) (file : CString) :
    fileStatOf (fileTables.record table e) file =
      if e.filename = file then (fileStatOf table file).record e else fileStatOf table file := by
  rw [fileTables_eq, fileStatOf, fileStatGet, Cell.lookup_table_record]
  by_cases h : file = e.filename
  · rw [if_pos h, if_pos h.symm]
    rfl
  · rw [if_neg h, if_neg (Ne.symm h)]
    rfl

/-- The times of the opens of a file. -/
def opens (file : CString) : List FileEvent → List CULongLong
  | [] => []
  | .incrOpen filename timeNs :: es =>
    if filename = file then timeNs :: opens file es else opens file es
  | _ :: es => opens file es

/-- The times of the closes of a file. -/
def closes (file : CString) : List FileEvent → List CULongLong
  | [] => []
  | .incrClose filename timeNs :: es =>
    if filename = file then timeNs :: closes file es else closes file es
  | _ :: es => closes file es

/-- The times and results of the reads of a file. -/
def reads (file : CString) : List FileEvent → List (CULongLong × CLong)
  | [] => []
  | .incrRead filename timeNs bytes :: es =>
    if filename = file then (timeNs, bytes) :: reads file es else reads file es
  | _ :: es => reads file es

/-- The times and results of the writes of a file. -/
def writes (file : CString) : List FileEvent → List (CULongLong × CLong)
  | [] => []
  | .incrWrite filename timeNs bytes :: es =>
    if filename = file then (timeNs, bytes) :: writes file es else writes file es
  | _ :: es => writes file es

theorem mem_reads {file : CString} {es : List FileEvent} {e : CULongLong × CLong} :
    e ∈ reads file es ↔ FileEvent.incrRead file e.1 e.2 ∈ es := by
  induction es with
  | nil => exact ⟨fun h => absurd h List.not_mem_nil, fun h => absurd h List.not_mem_nil⟩
  | cons e' es ih =>
      cases e' with
      | incrRead filename timeNs bytes =>
          rw [reads, List.mem_cons, ← ih, FileEvent.incrRead.injEq]
          split_ifs with h
          · rw [List.mem_cons, Prod.ext_iff, eq_true h.symm, true_and]
          · rw [eq_false (Ne.symm h), false_and, false_or]
      | _ => simp [reads, ih]

theorem mem_writes {file : CString} {es : List FileEvent} {e : CULongLong × CLong} :
    e ∈ writes file es ↔ FileEvent.incrWrite file e.1 e.2 ∈ es := by
  induction es with
  | nil => exact ⟨fun h => absurd h List.not_mem_nil, fun h => absurd h List.not_mem_nil⟩
  | cons e' es ih =>
      cases e' with
      | incrWrite filename timeNs bytes =>
          rw [writes, List.mem_cons, ← ih, FileEvent.incrWrite.injEq]
          split_ifs with h
          · rw [List.mem_cons, Prod.ext_iff, eq_true h.symm, true_and]
          · rw [eq_false (Ne.symm h), false_and, false_or]
      | _ => simp [writes, ih]

/-- The events of a file, by the part of its statistics that they change. -/
structure FileStat.Records (stat stat' : FileStat) (file : CString) (es : List FileEvent) :
    Prop where
  openStats : stat'.openStats = openCloseAcc.recordAll stat.openStats (opens file es)
  closeStats : stat'.closeStats = openCloseAcc.recordAll stat.closeStats (closes file es)
  readStats : stat'.readStats = readWriteAcc.recordAll stat.readStats (reads file es)
  writeStats : stat'.writeStats = readWriteAcc.recordAll stat.writeStats (writes file es)

/-- **The four parts of a file's statistics** record its opens, closes, reads and
writes. -/
theorem fileStatOf_recordAll (table : FileStatTable) (es : List FileEvent) (file : CString) :
    (fileStatOf table file).Records (fileStatOf (fileTables.recordAll table es) file) file es := by
  induction es generalizing table with
  | nil => exact ⟨rfl, rfl, rfl, rfl⟩
  | cons e es ih =>
      obtain ⟨hopen, hclose, hread, hwrite⟩ := ih (fileTables.record table e)
      rw [fileStatOf_record] at hopen hclose hread hwrite
      by_cases h : e.filename = file
      · simp only [if_pos h] at hopen hclose hread hwrite
        cases e with
        | incrOpen filename timeNs =>
            obtain rfl : filename = file := h
            refine ⟨hopen.trans ?_, hclose, hread, hwrite⟩
            rw [opens, if_pos rfl]
            rfl
        | incrClose filename timeNs =>
            obtain rfl : filename = file := h
            refine ⟨hopen, hclose.trans ?_, hread, hwrite⟩
            rw [closes, if_pos rfl]
            rfl
        | incrRead filename timeNs bytes =>
            obtain rfl : filename = file := h
            refine ⟨hopen, hclose, hread.trans ?_, hwrite⟩
            rw [reads, if_pos rfl]
            rfl
        | incrWrite filename timeNs bytes =>
            obtain rfl : filename = file := h
            refine ⟨hopen, hclose, hread, hwrite.trans ?_⟩
            rw [writes, if_pos rfl]
            rfl
      · simp only [if_neg h] at hopen hclose hread hwrite
        cases e with
        | incrOpen filename timeNs =>
            have hne : filename ≠ file := h
            refine ⟨hopen.trans ?_, hclose, hread, hwrite⟩
            rw [opens, if_neg hne]
        | incrClose filename timeNs =>
            have hne : filename ≠ file := h
            refine ⟨hopen, hclose.trans ?_, hread, hwrite⟩
            rw [closes, if_neg hne]
        | incrRead filename timeNs bytes =>
            have hne : filename ≠ file := h
            refine ⟨hopen, hclose, hread.trans ?_, hwrite⟩
            rw [reads, if_neg hne]
        | incrWrite filename timeNs bytes =>
            have hne : filename ≠ file := h
            refine ⟨hopen, hclose, hread, hwrite.trans ?_⟩
            rw [writes, if_neg hne]

theorem fileStatOf_create (file : CString) : fileStatOf fileStatCreate file = initFileStat := by
  rw [fileStatOf, fileStatGet, fileStatCreate, statTableInsert, FiniteMap.lookup_insert_eq]
  split_ifs
  · rfl
  · rw [Finmap.lookup_empty]
    rfl

/-- The statistics of a file in a table that was recorded and merged in any way. -/
theorem fileStatOf_recording (r : Recording FileEvent) (file : CString) :
    initFileStat.Records (fileStatOf (r.state fileTables) file) file r.events := by
  rw [Recording.state_eq fileTables_lawful, ← fileStatOf_create file]
  exact fileStatOf_recordAll fileStatCreate r.events file

/-- The statistics of a syscall. -/
def syscallStatAcc : Accumulation SyscallStat SyscallEvent where
  fresh := ⟨0, 0⟩
  record stat e := ⟨stat.count + 1, stat.totalNs + e.timeNs⟩
  merge := SyscallStat.merge

/-- The table of syscalls, as `src/unconsidered_syscall_stat.c` keeps it. -/
def syscallTables : Accumulation SyscallTable SyscallEvent :=
  ⟨syscallStatCreate, recordSyscall, syscallStatMerge⟩

theorem syscallTables_eq : syscallTables =
    (Cell.ofAccumulation syscallStatAcc).table SyscallEvent.syscall syscallStatCreate := by
  have hrecord : recordSyscall =
      ((Cell.ofAccumulation syscallStatAcc).table SyscallEvent.syscall
        syscallStatCreate).record := by
    funext table e
    change _ = FiniteMap.modify table e.syscall fun stat =>
      syscallStatAcc.record (stat.getD ⟨0, 0⟩) e
    unfold recordSyscall syscallStatIncr FiniteMap.modify syscallStatGet syscallStatInsert
    cases table.lookup e.syscall with
    | none =>
        rw [Finmap.insert_insert]
        refine congrArg (table.insert e.syscall) ?_
        exact congrArg₂ SyscallStat.mk rfl (BitVec.zero_add _).symm
    | some stat => rfl
  have hentry : syscallStatMergeEntry = fun table1 syscall stat2 =>
      FiniteMap.modify table1 syscall fun stat1 =>
        (Cell.ofAccumulation syscallStatAcc).merge stat1 stat2 :=
    funext fun table1 => funext fun syscall => funext fun stat2 =>
      syscallStatMergeEntry_eq table1 syscall stat2
  have hmerge : syscallStatMerge =
      ((Cell.ofAccumulation syscallStatAcc).table SyscallEvent.syscall
        syscallStatCreate).merge := by
    unfold syscallStatMerge Cell.table
    simp only [hentry]
  rw [syscallTables, hrecord, hmerge]
  rfl

theorem syscallStat_lawful : syscallStatAcc.Lawful fun _ => True where
  fresh_ok := trivial
  record_ok _ _ _ := trivial
  merge_fresh _ _ := congrArg₂ SyscallStat.mk (BitVec.add_zero _) (BitVec.add_zero _)
  merge_record _ _ _ _ :=
    congrArg₂ SyscallStat.mk (add_assoc _ _ _).symm (add_assoc _ _ _).symm

/-- **Merging tables of syscalls keeps up with recording.** -/
theorem syscallTables_lawful : syscallTables.Lawful (Cell.TableOk (fun _ => True) ∅) := by
  rw [syscallTables_eq]
  refine Cell.table_lawful (Cell.ofAccumulation_lawful syscallStat_lawful) fun _ _ h => ?_
  rw [syscallStatCreate, Finmap.lookup_empty] at h
  cases h

theorem syscallTables_commute (e e' : SyscallEvent) : syscallTables.Commute e e' := by
  rw [syscallTables_eq]
  exact Cell.table_commute fun _ => Cell.ofAccumulation_commute fun _ =>
    congrArg₂ SyscallStat.mk rfl (add_right_comm _ _ _)

/-! ### Many threads -/

/-- **Merging loses and duplicates nothing.**  Let any number of threads record
their events in tables of their own, in any interleaving, and merge these into the
main tables, each of them when it is done.  The main tables are then those of one
thread that recorded all events, in whatever order, and the tables that have been
merged are what their threads recorded. -/
theorem merge_eq_record {ι : Type} [DecidableEq ι] {threads : List ι}
    {fileEvents : ι → List FileEvent} {fileSteps : List (PoolStep ι FileEvent)}
    (hfiles : PoolStep.Interleaves threads fileEvents fileSteps)
    {allFiles : List FileEvent} (hallFiles : allFiles.Perm (threads.map fileEvents).flatten)
    (hrange : ∀ e ∈ allFiles, e.InRange)
    {syscallEvents : ι → List SyscallEvent} {syscallSteps : List (PoolStep ι SyscallEvent)}
    (hsyscalls : PoolStep.Interleaves threads syscallEvents syscallSteps)
    {allSyscalls : List SyscallEvent}
    (hallSyscalls : allSyscalls.Perm (threads.map syscallEvents).flatten) :
    (fileSteps.foldl (PoolStep.run fileTables) (fun _ => fileStatCreate) none =
        allFiles.foldl recordFile fileStatCreate ∧
      syscallSteps.foldl (PoolStep.run syscallTables) (fun _ => syscallStatCreate) none =
        allSyscalls.foldl recordSyscall syscallStatCreate) ∧
    ∀ i ∈ threads,
      fileSteps.foldl (PoolStep.run fileTables) (fun _ => fileStatCreate) (some i) =
        (fileEvents i).foldl recordFile fileStatCreate ∧
      syscallSteps.foldl (PoolStep.run syscallTables) (fun _ => syscallStatCreate) (some i) =
        (syscallEvents i).foldl recordSyscall syscallStatCreate :=
  ⟨⟨hfiles.main_eq fileTables_lawful hallFiles fun e he e' he' =>
      fileTables_commute (hrange e he) (hrange e' he'),
    hsyscalls.main_eq syscallTables_lawful hallSyscalls fun e _ e' _ =>
      syscallTables_commute e e'⟩,
    fun _ hi => ⟨hfiles.state_eq hi, hsyscalls.state_eq hi⟩⟩

/-- The reads of two threads from one file. -/
def twoReaders : ℕ → List FileEvent
  | 0 => [.incrRead (cstr "log") 5 10]
  | _ => [.incrRead (cstr "log") 7 (-11), .incrClose (cstr "log") 3]

/-- Two threads take turns, and the second one merges first. -/
def twoReadersSteps : List (PoolStep ℕ FileEvent) :=
  [.record 1 (.incrRead (cstr "log") 7 (-11)), .record 0 (.incrRead (cstr "log") 5 10),
    .record 1 (.incrClose (cstr "log") 3), .merge 1, .merge 0]

/-- The same two threads call `getpid`. -/
def twoCallers : ℕ → List SyscallEvent := fun _ => [⟨39, 2⟩]

/-- Two threads, one after the other. -/
def twoCallersSteps : List (PoolStep ℕ SyscallEvent) :=
  [.record 0 ⟨39, 2⟩, .merge 0, .record 1 ⟨39, 2⟩, .merge 1]

theorem twoReaders_interleaves : PoolStep.Interleaves [0, 1] twoReaders twoReadersSteps := by
  refine ⟨by decide, fun i hi => ?_, by decide⟩
  simp only [List.mem_cons, List.not_mem_nil, or_false] at hi
  rcases hi with rfl | rfl
  · rfl
  · rfl

theorem twoCallers_interleaves : PoolStep.Interleaves [0, 1] twoCallers twoCallersSteps := by
  refine ⟨by decide, fun i hi => ?_, by decide⟩
  simp only [List.mem_cons, List.not_mem_nil, or_false] at hi
  rcases hi with rfl | rfl
  · rfl
  · rfl

theorem twoReaders_inRange : ∀ e ∈ twoReaders 0 ++ twoReaders 1, e.InRange := by
  intro e he
  simp only [twoReaders, List.cons_append, List.nil_append, List.mem_cons, List.not_mem_nil,
    or_false] at he
  rcases he with rfl | rfl | rfl
  · exact ⟨by decide, by decide⟩
  · exact ⟨by decide, by decide⟩
  · trivial

/-- Two threads that read from one file, in one table each and in one table together. -/
theorem merge_eq_record_two :
    twoReadersSteps.foldl (PoolStep.run fileTables) (fun _ => fileStatCreate) none =
      (twoReaders 0 ++ twoReaders 1).foldl recordFile fileStatCreate ∧
    twoCallersSteps.foldl (PoolStep.run syscallTables) (fun _ => syscallStatCreate) none =
      (twoCallers 0 ++ twoCallers 1).foldl recordSyscall syscallStatCreate :=
  (merge_eq_record twoReaders_interleaves (List.Perm.refl _) twoReaders_inRange
    twoCallers_interleaves (List.Perm.refl _)).1

end Iotrace
