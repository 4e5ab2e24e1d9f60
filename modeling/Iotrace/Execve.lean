/-
# execve

`handle_execve_return` gives the tracee a table of its own and drops the
close-on-exec entries.  Run in one go it has two outcomes: a thread that is the
only one to use its table keeps it, without these entries; a thread that shares
its table moves to a copy, with a counter and a mutex of its own, and leaves the
shared table as it is to the others.

The handler does not look at the result of the syscall.  A failed `execve`, after
which the tracee goes on with the descriptors it had, is handled like a
successful one (`failed_execve_unchanged`).
-/

import Iotrace.Kernel
import Iotrace.Library.Runs

namespace Iotrace

open Runs

/-- An `execve` is a call that the two switches leave to `handle_execve_return`;
before, the start time and the statistics of syscalls are updated. -/
theorem handleCompleted_execve {s : Tracer} {c : Completed} (hc : c.Timed)
    (hsc : sysno c.sc = .SYS_execve) :
    ∃ startTime syscallTable, handleCompleted s c =
      (handleExecveReturn s.heap { s.tmps with startTime }).map fun r =>
        { s with heap := r.1, tmps := r.2, syscallTable } := by
  obtain ⟨start, hstart⟩ := Option.isSome_iff_exists.mp hc.call
  obtain ⟨now, hnow⟩ := Option.isSome_iff_exists.mp hc.ret
  have hcall : handleSyscallCall s.tmps c.call c.sc = .ok { s.tmps with startTime := start } := by
    simp only [handleSyscallCall, hsc, handleUnconsideredCall, saveCurrentTime_of_clock hstart]
  rw [handleCompleted, hcall, ok_bind]
  simp only [handleSyscallReturn, hsc, handleUnconsideredReturn, calcElapsedNs_of_clock hnow,
    ok_bind, handleUnconsideredSwitch]
  refine ⟨start, syscallStatIncr s.syscallTable c.sc (now.toNs - start.toNs), ?_⟩
  cases handleExecveReturn s.heap { s.tmps with startTime := start } <;> rfl

/-- **A table of one's own is kept**, without the close-on-exec entries. -/
theorem handleExecveReturn_of_private {heap : Heap} {tmps : ThreadTmps} {t : FdTable} {n : ℤ}
    (ht : heap.tables.cell tmps.fdTable = some t) (hm : heap.mutexes.cell tmps.fdMutex = some ())
    (hcount : heap.counts.cell tmps.shareCount = some n) (hn : n ≤ 1) :
    handleExecveReturn heap tmps =
      .ok (heap.setTable tmps.fdTable (fdTableRemoveCloexec t), tmps) := by
  rw [handleExecveReturn, Heap.atomicGet_of_cell hcount, ok_bind, if_neg (by omega), ok_bind]
  simp only [Heap.locked_of_cell ht hm, Heap.setTable]
  rfl

/-- **A shared table is left to the others.**  The thread goes on with a copy of
it, without the close-on-exec entries. -/
theorem handleExecveReturn_of_shared {heap : Heap} {tmps : ThreadTmps} {t : FdTable} {n : ℤ}
    (ht : heap.tables.cell tmps.fdTable = some t) (hm : heap.mutexes.cell tmps.fdMutex = some ())
    (hcount : heap.counts.cell tmps.shareCount = some n) (hn : 1 < n) :
    handleExecveReturn heap tmps =
      .ok ({ tables := (heap.tables.alloc t).write heap.tables.next (fdTableRemoveCloexec t)
             counts := ((heap.counts.write tmps.shareCount (n - 1)).alloc 0).write
               heap.counts.next 1
             mutexes := heap.mutexes.alloc () },
        { tmps with
          fdTable := heap.tables.next
          shareCount := heap.counts.next
          fdMutex := heap.mutexes.next }) := by
  have hlast : (n - 1 == 0) = false := by
    rw [beq_eq_false_iff_ne]
    omega
  have hdec : Heap.atomicDecAndTest ⟨heap.tables.alloc t, heap.counts, heap.mutexes⟩
      tmps.shareCount = .ok (false,
        ⟨heap.tables.alloc t, heap.counts.write tmps.shareCount (n - 1), heap.mutexes⟩) := by
    simp only [Heap.atomicDecAndTest, Heap.atomicGet, hcount, ok_bind, hlast]
  have hinc : Heap.atomicInc ⟨heap.tables.alloc t,
      (heap.counts.write tmps.shareCount (n - 1)).alloc 0, heap.mutexes.alloc ()⟩
        heap.counts.next = .ok ⟨heap.tables.alloc t,
          ((heap.counts.write tmps.shareCount (n - 1)).alloc 0).write heap.counts.next 1,
          heap.mutexes.alloc ()⟩ :=
    Heap.atomicInc_of_cell (n := 0) (Arena.alloc_cell_self _ _)
  rw [handleExecveReturn, Heap.atomicGet_of_cell hcount, ok_bind, if_pos hn,
    Heap.deepCopy_of_cell ht hm, ok_bind, hdec, ok_bind]
  simp only [Bool.false_eq_true, if_false, ok_bind, Heap.allocShared, Arena.write_next, hinc]
  rw [Heap.locked_of_cell (Arena.alloc_cell_self _ _) (Arena.alloc_cell_self _ _)]
  rfl

/-- `execve` of a tracee with a table of its own. -/
theorem handleCompleted_execve_of_private {s : Tracer} {t : FdTable} {n : ℤ} {c : Completed}
    (hs : s.Holds t) (hcount : s.heap.counts.cell s.tmps.shareCount = some n) (hn : n ≤ 1)
    (hc : c.Timed) (hsc : sysno c.sc = .SYS_execve) :
    ∃ startTime syscallTable, handleCompleted s c = .ok
        ⟨s.heap.setTable s.tmps.fdTable (fdTableRemoveCloexec t), { s.tmps with startTime },
          s.fileStatTable, syscallTable⟩ ∧
      Tracer.Holds ⟨s.heap.setTable s.tmps.fdTable (fdTableRemoveCloexec t),
        { s.tmps with startTime }, s.fileStatTable, syscallTable⟩ (fdTableRemoveCloexec t) := by
  obtain ⟨startTime, syscallTable, hstep⟩ := handleCompleted_execve (s := s) hc hsc
  have hret : handleExecveReturn s.heap { s.tmps with startTime } = _ :=
    handleExecveReturn_of_private hs.table hs.mutex hcount hn
  refine ⟨startTime, syscallTable, by rw [hstep, hret]; rfl, ?_⟩
  exact hs.setTable _ { s.tmps with startTime } ⟨rfl, rfl, rfl⟩ _ _

/-- `execve` of a tracee that shares its table. -/
theorem handleCompleted_execve_of_shared {s : Tracer} {t : FdTable} {n : ℤ} {c : Completed}
    (hs : s.Holds t) (hcount : s.heap.counts.cell s.tmps.shareCount = some n) (hn : 1 < n)
    (hc : c.Timed) (hsc : sysno c.sc = .SYS_execve) :
    ∃ s', handleCompleted s c = .ok s' ∧ s'.Holds (fdTableRemoveCloexec t) ∧
      s'.tmps.fdTable = s.heap.tables.next ∧
      s'.heap.counts.cell s'.tmps.shareCount = some 1 := by
  obtain ⟨startTime, syscallTable, hstep⟩ := handleCompleted_execve (s := s) hc hsc
  have hret : handleExecveReturn s.heap { s.tmps with startTime } = _ :=
    handleExecveReturn_of_shared hs.table hs.mutex hcount hn
  rw [hret] at hstep
  exact ⟨_, hstep, ⟨Arena.write_cell_self (Arena.alloc_cell_self _ _), Arena.alloc_cell_self _ _⟩,
    rfl, Arena.write_cell_self (Arena.alloc_cell_self _ _)⟩

/-! ### Every completed syscall -/

/-- The record refers to a live table with the contents `t`, to a live mutex and
to a live counter. -/
def Tracer.Alive (s : Tracer) (t : FdTable) : Prop :=
  s.Holds t ∧ ∃ n, s.heap.counts.cell s.tmps.shareCount = some n

theorem Tracer.ofTable_alive (t : FdTable) : (Tracer.ofTable t).Alive t :=
  ⟨Tracer.ofTable_holds t, 1, rfl⟩

/-- The contents of the table that the record refers to after a completed syscall. -/
def Completed.contents (c : Completed) (t : FdTable) : Except Abort FdTable :=
  if sysno c.sc = .SYS_execve then .ok (fdTableRemoveCloexec t) else c.tableEffect t

/-- **The handlers on the contents of the table**, for every completed syscall:
afterwards the record refers to a live table with these contents, which may be
another one than before. -/
theorem handleCompleted_contents {s : Tracer} {t : FdTable} {c : Completed} (hs : s.Alive t)
    (hc : c.Timed) (hr : c.Readable) :
    ∃ f : FdTable → Tracer, handleCompleted s c = (c.contents t).map f ∧
      ∀ t', c.contents t = .ok t' → (f t').Alive t' := by
  obtain ⟨hs, n, hcount⟩ := hs
  unfold Completed.contents
  split_ifs with hexec
  · rcases le_or_gt n 1 with hn | hn
    · obtain ⟨startTime, syscallTable, hstep, hs'⟩ :=
        handleCompleted_execve_of_private hs hcount hn hc hexec
      refine ⟨fun _ => _, hstep, fun t' ht' => ?_⟩
      obtain rfl := Except.ok.inj ht'
      exact ⟨hs', n, hcount⟩
    · obtain ⟨s', hstep, hs', -, hcount'⟩ :=
        handleCompleted_execve_of_shared hs hcount hn hc hexec
      refine ⟨fun _ => s', hstep, fun t' ht' => ?_⟩
      obtain rfl := Except.ok.inj ht'
      exact ⟨hs', 1, hcount'⟩
  · obtain ⟨tmps, fileStat, syscalls, hrefs, hstep⟩ := handleCompleted_eq hs hc hr hexec
    refine ⟨_, hstep, fun t' _ => ⟨hs.setTable t' tmps hrefs fileStat syscalls, n, ?_⟩⟩
    exact (congrArg s.heap.counts.cell hrefs.shareCount).trans hcount

/-! ### What the handlers do not read

A call handler overwrites the start time before anything reads it, and the
statistics of syscalls are only written.  A view of the tracer without the two
is enough to say what the handlers do to the rest. -/

/-- The tracer without start time and statistics of syscalls. -/
def Tracer.bare (s : Tracer) : Tracer :=
  { s with tmps := { s.tmps with startTime := ⟨0, 0⟩ }, syscallTable := ∅ }

/-- **Every call handler sets the start time.** -/
theorem handleSyscallCall_startTime (tmps : ThreadTmps) (startTime : Timespec) (stop : Stop)
    (sc : CInt) :
    handleSyscallCall { tmps with startTime } stop sc = handleSyscallCall tmps stop sc := by
  unfold handleSyscallCall
  cases sysno sc <;>
    simp only [handleOpenCall, handleCloseCall, handleReadCall, handleWriteCall, saveFd,
      handlePipeCall, handleSocketCall, handleSocketpairCall, handleEventfdCall,
      handleEpollcreateCall, handleAcceptCall, handleUnconsideredCall, handleDupCall,
      handleFcntlCall, handleIoctlCall, Bool.false_eq_true, if_false, if_true, saveCurrentTime]

/-- The result of a handler, with the given statistics of syscalls. -/
def withSyscalls (y : SyscallTable) (x : Except Abort Tracer) : Except Abort Tracer :=
  x.map fun s => { s with syscallTable := y }

theorem insertFd_withSyscalls (s : Tracer) (y : SyscallTable) (fd : CInt) (filename : CString)
    (cloexec : Bool) :
    insertFd { s with syscallTable := y } fd filename cloexec =
      withSyscalls y (insertFd s fd filename cloexec) := by
  simp only [insertFd]
  cases s.heap.locked s.tmps.fdTable s.tmps.fdMutex _ <;> rfl

theorem returnFd_withSyscalls (s : Tracer) (y : SyscallTable) (stop : Stop) (sc : CInt)
    (filename : CString) (cloexec : Bool) :
    returnFd { s with syscallTable := y } stop sc filename cloexec =
      withSyscalls y (returnFd s stop sc filename cloexec) := by
  simp only [returnFd, insertFd_withSyscalls]
  cases calcElapsedNs s.tmps stop sc with
  | error e => rfl
  | ok elapsedNs =>
      simp only [ok_bind]
      split_ifs
      · cases insertFd s (toCInt (stop.user .RAX)) filename cloexec <;> rfl
      · rfl

theorem returnPair_withSyscalls (s : Tracer) (y : SyscallTable) (stop : Stop) (sc : CInt)
    (filenameA filenameB : CString) (cloexec : Bool) :
    returnPair { s with syscallTable := y } stop sc filenameA filenameB cloexec =
      withSyscalls y (returnPair s stop sc filenameA filenameB cloexec) := by
  simp only [returnPair, insertFd_withSyscalls]
  cases calcElapsedNs s.tmps stop sc with
  | error e => rfl
  | ok elapsedNs =>
      simp only [ok_bind]
      split_ifs
      · generalize toCInt (peekDataUnchecked stop.mem s.tmps.ptr) = fdA
        cases insertFd s fdA filenameA cloexec with
        | error e => rfl
        | ok s₁ =>
            simp only [withSyscalls, Except.map, ok_bind, insertFd_withSyscalls]
            cases insertFd s₁ _ filenameB cloexec <;> rfl
      · rfl

theorem handleUnconsideredSwitch_withSyscalls (s : Tracer) (y : SyscallTable) (stop : Stop)
    (sc : CInt) :
    handleUnconsideredSwitch { s with syscallTable := y } stop sc =
      withSyscalls y (handleUnconsideredSwitch s stop sc) := by
  unfold handleUnconsideredSwitch
  cases sysno sc
  case SYS_dup | SYS_dup2 | SYS_dup3 => cases handleDupReturn s.heap s.tmps stop <;> rfl
  case SYS_fcntl => cases handleFcntlReturn s.heap s.tmps stop <;> rfl
  case SYS_execve => cases handleExecveReturn s.heap s.tmps <;> rfl
  case SYS_ioctl => cases handleIoctlReturn s.heap s.tmps stop <;> rfl
  all_goals rfl

theorem map_bare_withSyscalls (y : SyscallTable) (x : Except Abort Tracer) :
    (withSyscalls y x).map Tracer.bare = x.map Tracer.bare := by
  cases x <;> rfl

/-- **No return handler reads the statistics of syscalls.** -/
theorem handleSyscallReturn_bare (s : Tracer) (y : SyscallTable) (stop : Stop) (sc : CInt) :
    (handleSyscallReturn { s with syscallTable := y } stop sc).map Tracer.bare =
      (handleSyscallReturn s stop sc).map Tracer.bare := by
  have hfd : ∀ filename cloexec,
      (returnFd { s with syscallTable := y } stop sc filename cloexec).map Tracer.bare =
        (returnFd s stop sc filename cloexec).map Tracer.bare := fun filename cloexec => by
    rw [returnFd_withSyscalls, map_bare_withSyscalls]
  have hpair : ∀ filenameA filenameB cloexec,
      (returnPair { s with syscallTable := y } stop sc filenameA filenameB cloexec).map
        Tracer.bare = (returnPair s stop sc filenameA filenameB cloexec).map Tracer.bare :=
    fun filenameA filenameB cloexec => by
      rw [returnPair_withSyscalls, map_bare_withSyscalls]
  have hswitch : ∀ y, (handleUnconsideredSwitch { s with syscallTable := y } stop sc).map
      Tracer.bare = (handleUnconsideredSwitch s stop sc).map Tracer.bare := fun y => by
    rw [handleUnconsideredSwitch_withSyscalls, map_bare_withSyscalls]
  unfold handleSyscallReturn
  cases sysno sc
  case SYS_close =>
    simp only [handleCloseReturn, handleCloseReturnCount, handleCloseReturnRemove, attributedFile]
    cases calcElapsedNs s.tmps stop sc with
    | error e => rfl
    | ok elapsedNs =>
        cases s.heap.lockedTable s.tmps.fdTable s.tmps.fdMutex with
        | error e => rfl
        | ok t =>
            simp only [ok_bind]
            cases s.heap.locked s.tmps.fdTable s.tmps.fdMutex _ <;> rfl
  case SYS_read | SYS_readv | SYS_preadv | SYS_preadv2 | SYS_pread64 =>
    simp only [handleReadReturn, attributedFile]
    cases calcElapsedNs s.tmps stop sc with
    | error e => rfl
    | ok elapsedNs => cases s.heap.lockedTable s.tmps.fdTable s.tmps.fdMutex <;> rfl
  case SYS_write | SYS_writev | SYS_pwritev | SYS_pwritev2 | SYS_pwrite64 =>
    simp only [handleWriteReturn, attributedFile]
    cases calcElapsedNs s.tmps stop sc with
    | error e => rfl
    | ok elapsedNs => cases s.heap.lockedTable s.tmps.fdTable s.tmps.fdMutex <;> rfl
  case SYS_pipe | SYS_pipe2 | SYS_socketpair => exact hpair _ _ _
  case SYS_dup | SYS_dup2 | SYS_dup3 | SYS_fcntl | SYS_ioctl | SYS_execve | other =>
    simp only [handleUnconsideredReturn]
    cases calcElapsedNs s.tmps stop sc with
    | error e => rfl
    | ok elapsedNs =>
        simp only [ok_bind]
        exact (hswitch _).trans (hswitch _).symm
  all_goals exact hfd _ _

/-- **The handlers do the same to tracers that look the same.** -/
theorem handleCompleted_bare {s s' : Tracer} (c : Completed) (h : s.bare = s'.bare) :
    (handleCompleted s c).map Tracer.bare = (handleCompleted s' c).map Tracer.bare := by
  obtain ⟨heap, tmps, fileStatTable, syscallTable⟩ := s
  obtain ⟨heap', tmps', fileStatTable', syscallTable'⟩ := s'
  simp only [Tracer.bare, Tracer.mk.injEq] at h
  obtain ⟨rfl, htmps, rfl, -⟩ := h
  have hcall : handleSyscallCall tmps c.call c.sc = handleSyscallCall tmps' c.call c.sc := by
    rw [← handleSyscallCall_startTime tmps ⟨0, 0⟩, htmps, handleSyscallCall_startTime]
  simp only [handleCompleted, hcall]
  cases handleSyscallCall tmps' c.call c.sc with
  | error e => rfl
  | ok tmps =>
      exact handleSyscallReturn_bare ⟨heap, tmps, fileStatTable, syscallTable'⟩ syscallTable _ _

/-! ### A failed execve -/

/-- An `execve` that returned `-errno`. -/
def Completed.failedExecve (c : Completed) : Bool :=
  sysno c.sc = .SYS_execve ∧ -4095 ≤ c.rax.toInt ∧ c.rax.toInt ≤ -1

/-- The table is not shared and has no close-on-exec entry. -/
def Tracer.Unaffected (s : Tracer) : Prop :=
  ∃ t n, s.Holds t ∧ s.heap.counts.cell s.tmps.shareCount = some n ∧ n ≤ 1 ∧
    ∀ fd entry, t.lookup fd = some entry → entry.cloexec = false

/-- The record refers to the same table, counter and mutex, the counter has the
same value and the table the same entries. -/
structure Tracer.SameBookkeeping (s s' : Tracer) : Prop where
  refs : s.tmps.SameRefs s'.tmps
  count : s'.heap.counts.cell s'.tmps.shareCount = s.heap.counts.cell s.tmps.shareCount
  table : s'.heap.tables.cell s'.tmps.fdTable = s.heap.tables.cell s.tmps.fdTable

/-- Removing the close-on-exec entries changes nothing where there are none. -/
theorem fdTableRemoveCloexec_eq_self_iff (t : FdTable) :
    fdTableRemoveCloexec t = t ↔ ∀ fd entry, t.lookup fd = some entry → entry.cloexec = false := by
  constructor
  · intro h fd entry hentry
    have hlook := lookup_fdTableRemoveCloexec t fd
    rw [h, hentry, eq_comm, Option.filter_eq_some_iff] at hlook
    simpa using hlook.2
  · intro h
    refine Finmap.ext_lookup fun fd => ?_
    rw [lookup_fdTableRemoveCloexec]
    cases hentry : t.lookup fd with
    | none => rfl
    | some entry => simp [Option.filter, h fd entry hentry]

/-- **Where `execve` changes nothing:** in the one case in which the table is
private and has no entry to drop. -/
theorem handleCompleted_execve_sameBookkeeping_iff {s : Tracer} {t : FdTable} {n : ℤ}
    {c : Completed} (hs : s.Holds t) (hcount : s.heap.counts.cell s.tmps.shareCount = some n)
    (hc : c.Timed) (hsc : sysno c.sc = .SYS_execve) :
    ∃ s', handleCompleted s c = .ok s' ∧
      (s.SameBookkeeping s' ↔
        n ≤ 1 ∧ ∀ fd entry, t.lookup fd = some entry → entry.cloexec = false) ∧
      (s.SameBookkeeping s' → s'.bare = s.bare) := by
  rcases le_or_gt n 1 with hn | hn
  · obtain ⟨startTime, syscallTable, hstep, -⟩ :=
      handleCompleted_execve_of_private hs hcount hn hc hsc
    have hcell : (s.heap.setTable s.tmps.fdTable (fdTableRemoveCloexec t)).tables.cell
        s.tmps.fdTable = some (fdTableRemoveCloexec t) := Arena.write_cell_self hs.table
    have hiff : (s.heap.setTable s.tmps.fdTable (fdTableRemoveCloexec t)).tables.cell
        s.tmps.fdTable = s.heap.tables.cell s.tmps.fdTable ↔ fdTableRemoveCloexec t = t := by
      rw [hcell, hs.table, Option.some.injEq]
    refine ⟨_, hstep, ⟨fun h => ⟨hn, ?_⟩, fun h => ⟨⟨rfl, rfl, rfl⟩, rfl, ?_⟩⟩, fun h => ?_⟩
    · exact (fdTableRemoveCloexec_eq_self_iff t).mp (hiff.mp h.table)
    · exact hiff.mpr ((fdTableRemoveCloexec_eq_self_iff t).mpr h.2)
    · have hsame := hiff.mp h.table
      simp only [Tracer.bare, hsame, Heap.setTable_same hs.table]
  · obtain ⟨s', hstep, -, hnext, -⟩ := handleCompleted_execve_of_shared hs hcount hn hc hsc
    have hmoved : ¬s.SameBookkeeping s' := fun h =>
      Arena.ne_next hs.table (h.refs.fdTable.symm.trans hnext)
    exact ⟨s', hstep, ⟨fun h => absurd h hmoved, fun h => absurd h.1 (by omega)⟩,
      fun h => absurd h hmoved⟩

/-- **A failed `execve` changes nothing**, neither the references of the thread
nor the counter nor any entry, if and only if the table is not shared and has no
close-on-exec entry; and where every failed `execve` of a run finds such a table,
leaving them all out of the run changes no table and no attribution. -/
theorem failed_execve_unchanged (s : Tracer) :
    (∀ (t : FdTable) (n : ℤ) (c : Completed) (errno : ℤ), s.Holds t →
      s.heap.counts.cell s.tmps.shareCount = some n → c.Timed → sysno c.sc = .SYS_execve →
      c.FailsWith errno → ∃ s', handleCompleted s c = .ok s' ∧
        (s.SameBookkeeping s' ↔
          n ≤ 1 ∧ ∀ fd entry, t.lookup fd = some entry → entry.cloexec = false)) ∧
    ∀ l : List Completed,
      Along handleCompleted (fun s c => c.failedExecve = true → c.Timed ∧ s.Unaffected) s l →
        (l.foldlM handleCompleted s).map Tracer.bare =
          ((l.filter fun c => !c.failedExecve).foldlM handleCompleted s).map Tracer.bare := by
  refine ⟨fun t n c errno hs hcount hc hsc _ => ?_, fun l h => ?_⟩
  · obtain ⟨s', hstep, hiff, -⟩ := handleCompleted_execve_sameBookkeeping_iff hs hcount hc hsc
    exact ⟨s', hstep, hiff⟩
  · refine foldlM_map_filter (fun s s' c => handleCompleted_bare c)
      (h.mono fun s c hfail hkeep => ?_)
    have hfailed : c.failedExecve = true := by simpa using hkeep
    obtain ⟨hc, t, n, hs, hcount, hn, hclean⟩ := hfail hfailed
    obtain ⟨hsc, -⟩ := of_decide_eq_true hfailed
    obtain ⟨s', hstep, hiff, hbare⟩ :=
      handleCompleted_execve_sameBookkeeping_iff hs hcount hc hsc
    exact ⟨s', hstep, hbare (hiff.mpr ⟨hn, hclean⟩)⟩

/-- An `execve` of a path that does not exist: it returns `-ENOENT`. -/
def execveEnoent : Completed := .ofRegs 59 0x1000 0 0 0 (-2) fun _ => none

theorem fdTableCreate_no_cloexec :
    ∀ fd entry, fdTableCreate.lookup fd = some entry → entry.cloexec = false := by
  intro fd entry h
  simp only [fdTableCreate, lookup_fdTableInsert] at h
  split_ifs at h
  · cases h; rfl
  · cases h; rfl
  · cases h; rfl
  · simp at h

/-- `execvp` tries two directories before the tracee reads its standard input. -/
theorem failed_execve_unchanged_enoent :
    (∃ s', handleCompleted (Tracer.ofTable fdTableCreate) execveEnoent = .ok s' ∧
      (Tracer.ofTable fdTableCreate).SameBookkeeping s') ∧
    ([execveEnoent, .ofRegs 0 0 0 0 0 16 fun _ => none].foldlM handleCompleted
      (Tracer.ofTable fdTableCreate)).map Tracer.bare =
    ([.ofRegs 0 0 0 0 0 16 fun _ => none].foldlM handleCompleted
      (Tracer.ofTable fdTableCreate)).map Tracer.bare := by
  have hs := Tracer.ofTable_holds fdTableCreate
  obtain ⟨hfailed, hleftOut⟩ := failed_execve_unchanged (Tracer.ofTable fdTableCreate)
  constructor
  · obtain ⟨s', hstep, hiff⟩ := hfailed fdTableCreate 1 execveEnoent 2 hs rfl ⟨rfl, rfl⟩ rfl
      ⟨by decide, by decide, by decide⟩
    exact ⟨s', hstep, hiff.mpr ⟨by decide, fdTableCreate_no_cloexec⟩⟩
  · refine hleftOut _ ⟨fun _ => ⟨⟨rfl, rfl⟩, ?_⟩, fun s' _ => ⟨?_, fun _ _ => trivial⟩⟩
    · exact ⟨fdTableCreate, 1, hs, rfl, by decide, fdTableCreate_no_cloexec⟩
    · exact fun h => absurd h (by decide)

/-- **A close-on-exec descriptor is lost** when an `execve` fails. -/
theorem failed_execve_drops_entry :
    execveEnoent.FailsWith 2 ∧
    ∃ s' t', handleCompleted (Tracer.ofTable (fdTableInsert fdTableCreate 3 (cstr "log") true))
        execveEnoent = .ok s' ∧ s'.Holds t' ∧
      (fdTableInsert fdTableCreate 3 (cstr "log") true).lookup 3 = some ⟨cstr "log", true⟩ ∧
      t'.lookup 3 = none := by
  have hs := Tracer.ofTable_holds (fdTableInsert fdTableCreate 3 (cstr "log") true)
  obtain ⟨startTime, syscallTable, hstep, hs'⟩ :=
    handleCompleted_execve_of_private (c := execveEnoent) hs (n := 1) rfl le_rfl ⟨rfl, rfl⟩ rfl
  refine ⟨⟨by decide, by decide, by decide⟩, _, _, hstep, hs', ?_, ?_⟩
  · rw [lookup_fdTableInsert, if_pos rfl]
  · rw [lookup_fdTableRemoveCloexec, lookup_fdTableInsert, if_pos rfl]
    rfl

end Iotrace
