/-
# The scratch fields between a call and its return

`handle_syscall_call` and `handle_syscall_return` are two switches over the syscall
number, and the scratch fields of the `thread_tmps` record are all that the second
one knows of the first stop.  A field that a return handler reads and that the
matching call handler has not written would carry a value over from an earlier
syscall.

There is none.  Where a call handler returns, the fields that the return handler
reads hold what was in the registers and in the memory at the entry stop
(`handleSyscallCall_ok`), and a return handler reads no other field, so that what a
completed syscall does is the same from any two records with the same references
(`scratch_irrelevant`).
-/

import Iotrace.Execve

namespace Iotrace

/-! ### What a call handler needs -/

/-- What `read_string` returns does not depend on what is in the buffer before. -/
theorem readString_fst (mem : Memory) (base : CLong) (dest dest' : ℕ → Byte) (maxLen : ℕ) :
    (readString mem base dest maxLen).1 = (readString mem base dest' maxLen).1 := by
  unfold readString
  generalize (maxLen + 7) / 8 = n
  generalize 0 = i
  induction n generalizing i dest dest' with
  | zero => rfl
  | succ n ih =>
      unfold readStringLoop
      cases peekData mem (base + BitVec.ofNat 64 (i * 8)) with
      | none => rfl
      | some data =>
          -- The test for a NUL looks at the word that has just been copied.
          have hnul : ((List.range 8).any fun j =>
                memcpyWord dest (i * 8) data (i * 8 + j) == 0) =
              (List.range 8).any fun j => memcpyWord dest' (i * 8) data (i * 8 + j) == 0 := by
            rw [Bool.eq_iff_iff, List.any_eq_true, List.any_eq_true]
            refine exists_congr fun j => and_congr_right fun hj => ?_
            have hj : j < 8 := List.mem_range.mp hj
            rw [memcpyWord_of_mem ⟨by omega, by omega⟩, memcpyWord_of_mem ⟨by omega, by omega⟩]
          simp only [hnul]
          split_ifs
          · rfl
          · exact ih _ _ _

theorem saveCurrentTime_clock {tmps tmps' : ThreadTmps} {stop : Stop} {sc : CInt}
    (h : saveCurrentTime tmps stop sc = .ok tmps') : stop.clock.isSome := by
  unfold saveCurrentTime at h
  cases hclock : stop.clock with
  | none =>
      rw [hclock] at h
      cases h
  | some now => rfl

/-- Where the handler of an `open` returns, the clock and the name could be read. -/
theorem handleOpenCall_ok {tmps tmps' : ThreadTmps} {stop : Stop} {sc : CInt} {openat : Bool}
    (h : handleOpenCall tmps stop sc openat = .ok tmps') :
    stop.clock.isSome ∧
      (readString stop.mem (stop.user (if openat then .RSI else .RDI)) tmps.filenameBuffer
        FILENAME_BUFF_SIZE).1 = 0 := by
  simp only [handleOpenCall] at h
  by_cases hret : (readString stop.mem (stop.user (if openat then .RSI else .RDI))
      tmps.filenameBuffer FILENAME_BUFF_SIZE).1 = 0
  · rw [if_pos hret] at h
    exact ⟨saveCurrentTime_clock h, hret⟩
  · rw [if_neg hret] at h
    cases h

/-- **Every call handler reads the clock**, and the open calls read a path. -/
theorem handleSyscallCall_needs {c : Completed} {tmps tmps' : ThreadTmps}
    (h : handleSyscallCall tmps c.call c.sc = .ok tmps') :
    c.call.clock.isSome ∧ c.Readable := by
  unfold handleSyscallCall at h
  unfold Completed.Readable
  cases hsc : sysno c.sc <;> simp only [hsc] at h ⊢
  case SYS_open =>
    obtain ⟨hclock, hread⟩ := handleOpenCall_ok h
    exact ⟨hclock, fun dest => (readString_fst _ _ _ _ _).trans hread⟩
  case SYS_openat =>
    obtain ⟨hclock, hread⟩ := handleOpenCall_ok h
    exact ⟨hclock, fun dest => (readString_fst _ _ _ _ _).trans hread⟩
  all_goals exact ⟨saveCurrentTime_clock h, trivial⟩

/-- **What a call handler leaves behind,** where it returns. -/
theorem handleSyscallCall_ok {c : Completed} {tmps tmps' : ThreadTmps}
    (h : handleSyscallCall tmps c.call c.sc = .ok tmps') :
    tmps.SameRefs tmps' ∧ c.Scratch tmps' ∧ c.call.clock = some tmps'.startTime := by
  obtain ⟨hclock, hread⟩ := handleSyscallCall_needs h
  obtain ⟨now, hnow⟩ := Option.isSome_iff_exists.mp hclock
  obtain ⟨tmps'', hcall, hrefs, hscratch, htime⟩ := handleSyscallCall_scratch hnow hread tmps
  obtain rfl : tmps'' = tmps' := Except.ok.inj (hcall.symm.trans h)
  exact ⟨hrefs, hscratch, by rw [hnow, htime]⟩

/-- Whether a call handler returns, and what it fails with, does not depend on the record. -/
theorem handleSyscallCall_outcome (c : Completed) (tmps tmps' : ThreadTmps) :
    (∃ e, handleSyscallCall tmps c.call c.sc = .error e ∧
      handleSyscallCall tmps' c.call c.sc = .error e) ∨
    ∃ u u', handleSyscallCall tmps c.call c.sc = .ok u ∧
      handleSyscallCall tmps' c.call c.sc = .ok u' := by
  have hsave : ∀ u u' : ThreadTmps,
      (∃ e, saveCurrentTime u c.call c.sc = .error e ∧ saveCurrentTime u' c.call c.sc = .error e) ∨
      ∃ v v', saveCurrentTime u c.call c.sc = .ok v ∧ saveCurrentTime u' c.call c.sc = .ok v' := by
    intro u u'
    unfold saveCurrentTime
    cases c.call.clock with
    | none => exact Or.inl ⟨_, rfl, rfl⟩
    | some now => exact Or.inr ⟨_, _, rfl, rfl⟩
  have hopen : ∀ openat, (∃ e, handleOpenCall tmps c.call c.sc openat = .error e ∧
        handleOpenCall tmps' c.call c.sc openat = .error e) ∨
      ∃ v v', handleOpenCall tmps c.call c.sc openat = .ok v ∧
        handleOpenCall tmps' c.call c.sc openat = .ok v' := by
    intro openat
    simp only [handleOpenCall]
    rw [readString_fst _ _ tmps.filenameBuffer tmps'.filenameBuffer]
    by_cases hret : (readString c.call.mem (c.call.user (if openat then .RSI else .RDI))
        tmps'.filenameBuffer FILENAME_BUFF_SIZE).1 = 0
    · rw [if_pos hret, if_pos hret]
      exact hsave _ _
    · rw [if_neg hret, if_neg hret]
      exact Or.inl ⟨_, rfl, rfl⟩
  unfold handleSyscallCall
  cases sysno c.sc
  case SYS_open => exact hopen false
  case SYS_openat => exact hopen true
  all_goals exact hsave _ _

/-! ### What a return handler reads -/

/-- The tracer without the scratch fields of its record, but for the start time. -/
def Tracer.clean (s : Tracer) : Tracer :=
  { s with tmps :=
      { s.tmps with ptr := 0, intA := 0, intB := 0, intC := 0, filenameBuffer := fun _ => 0 } }

/-- Two tracers that differ in their scratch fields only. -/
structure Tracer.Agree (s s' : Tracer) : Prop where
  heap : s'.heap = s.heap
  refs : s.tmps.SameRefs s'.tmps
  startTime : s'.tmps.startTime = s.tmps.startTime
  fileStatTable : s'.fileStatTable = s.fileStatTable
  syscallTable : s'.syscallTable = s.syscallTable

/-- Tracers that agree are the same but for the scratch fields. -/
theorem Tracer.agree_iff {s s' : Tracer} : s.Agree s' ↔ s'.clean = s.clean := by
  obtain ⟨heap, tmps, fileStat, syscalls⟩ := s
  obtain ⟨heap', tmps', fileStat', syscalls'⟩ := s'
  constructor
  · rintro ⟨hheap, ⟨htable, hcount, hmutex⟩, htime, hfile, hsys⟩
    simp only at hheap htable hcount hmutex htime hfile hsys
    simp only [clean, hheap, htable, hcount, hmutex, htime, hfile, hsys]
  · intro h
    simp only [clean, Tracer.mk.injEq, ThreadTmps.mk.injEq] at h
    obtain ⟨hheap, ⟨htime, -, -, -, -, -, htable, hcount, hmutex⟩, hfile, hsys⟩ := h
    exact ⟨hheap, ⟨htable, hcount, hmutex⟩, htime, hfile, hsys⟩

/-- What a handler did, but for the scratch fields that it leaves in the record. -/
def cleaned (x : Except Abort Tracer) : Except Abort Tracer := x.map Tracer.clean

theorem cleaned_ok {s s' : Tracer} (h : s.Agree s') :
    cleaned (.ok s') = cleaned (.ok s) := by
  rw [cleaned, cleaned, Except.map, Except.map, Tracer.agree_iff.mp h]

/-- Two handlers did the same but for the scratch fields if both abort alike or
both return, with tracers that agree. -/
theorem cleaned_eq_iff {x x' : Except Abort Tracer} :
    cleaned x' = cleaned x ↔ (∃ e, x = .error e ∧ x' = .error e) ∨
      ∃ s s', x = .ok s ∧ x' = .ok s' ∧ s.Agree s' := by
  constructor
  · intro h
    cases x with
    | error e =>
        cases x' with
        | error e' => exact Or.inl ⟨e, rfl, h⟩
        | ok s' => cases h
    | ok s =>
        cases x' with
        | error e' => cases h
        | ok s' => exact Or.inr ⟨s, s', rfl, rfl, Tracer.agree_iff.mpr (Except.ok.inj h)⟩
  · rintro (⟨e, rfl, rfl⟩ | ⟨s, s', rfl, rfl, h⟩)
    · rfl
    · exact cleaned_ok h

/-- **One step after another:** what agrees after the first and whatever the
second does with tracers that agree. -/
theorem cleaned_bind {x x' : Except Abort Tracer} {f f' : Tracer → Except Abort Tracer}
    (hx : cleaned x' = cleaned x) (hf : ∀ s s', s.Agree s' → cleaned (f' s') = cleaned (f s)) :
    cleaned (x' >>= f') = cleaned (x >>= f) := by
  rcases cleaned_eq_iff.mp hx with ⟨e, rfl, rfl⟩ | ⟨s, s', rfl, rfl, h⟩
  · rfl
  · exact hf s s' h

/-- What is read first is the same for both. -/
theorem cleaned_congr {A : Type} (x : Except Abort A) {f f' : A → Except Abort Tracer}
    (hf : ∀ a, cleaned (f' a) = cleaned (f a)) : cleaned (x >>= f') = cleaned (x >>= f) := by
  cases x with
  | error e => rfl
  | ok a => exact hf a

section Agree

variable {s s' : Tracer} (hs : s.Agree s')

include hs

theorem locked_agree (body : FdTable → Except Abort FdTable) :
    s'.heap.locked s'.tmps.fdTable s'.tmps.fdMutex body =
      s.heap.locked s.tmps.fdTable s.tmps.fdMutex body := by
  rw [hs.heap, hs.refs.fdTable, hs.refs.fdMutex]

/-- The elapsed time depends on the start time only. -/
theorem calcElapsedNs_agree (stop : Stop) (sc : CInt) :
    calcElapsedNs s'.tmps stop sc = calcElapsedNs s.tmps stop sc := by
  rw [calcElapsedNs, calcElapsedNs, hs.startTime]

theorem attributedFile_agree (hfd : s'.tmps.intA = s.tmps.intA) :
    attributedFile s' = attributedFile s := by
  rw [attributedFile, attributedFile, hs.heap, hs.refs.fdTable, hs.refs.fdMutex, hfd]

/-- The same new heap. -/
theorem heap_agree (heap : Heap) :
    cleaned (.ok { s' with heap }) = cleaned (.ok { s with heap }) :=
  cleaned_ok ⟨rfl, hs.refs, hs.startTime, hs.fileStatTable, hs.syscallTable⟩

/-- The same change of the statistics of files. -/
theorem fileStatTable_agree (f : FileStatTable → FileStatTable) :
    cleaned (.ok { s' with fileStatTable := f s'.fileStatTable }) =
      cleaned (.ok { s with fileStatTable := f s.fileStatTable }) :=
  cleaned_ok ⟨hs.heap, hs.refs, hs.startTime, congrArg f hs.fileStatTable, hs.syscallTable⟩

theorem insertFd_agree (fd : CInt) (filename : CString) (cloexec : Bool) :
    cleaned (insertFd s' fd filename cloexec) = cleaned (insertFd s fd filename cloexec) := by
  rw [insertFd, insertFd, locked_agree hs]
  exact cleaned_congr _ fun heap => heap_agree hs heap

theorem returnFd_agree (stop : Stop) (sc : CInt) (filename : CString) (cloexec : Bool) :
    cleaned (returnFd s' stop sc filename cloexec) =
      cleaned (returnFd s stop sc filename cloexec) := by
  rw [returnFd, returnFd, calcElapsedNs_agree hs]
  refine cleaned_congr _ fun elapsedNs => ?_
  have hopen : ∀ s s' : Tracer, s.Agree s' → _ := fun s s' hs =>
    fileStatTable_agree hs fun table => fileStatIncrOpen table filename elapsedNs
  by_cases hret : 0 ≤ (stop.user .RAX).toInt
  · simp only [if_pos hret]
    exact cleaned_bind (insertFd_agree hs _ _ _) hopen
  · simp only [if_neg hret]
    exact hopen _ _ hs

/-- The pair of descriptors is found through `tmps->ptr`. -/
theorem returnPair_agree (hptr : s'.tmps.ptr = s.tmps.ptr) (stop : Stop) (sc : CInt)
    (filenameA filenameB : CString) (cloexec : Bool) :
    cleaned (returnPair s' stop sc filenameA filenameB cloexec) =
      cleaned (returnPair s stop sc filenameA filenameB cloexec) := by
  rw [returnPair, returnPair, calcElapsedNs_agree hs, hptr]
  refine cleaned_congr _ fun elapsedNs => ?_
  split_ifs
  · refine cleaned_bind (insertFd_agree hs _ _ _) fun s s' hs => ?_
    refine cleaned_bind (insertFd_agree hs _ _ _) fun s s' hs => ?_
    exact fileStatTable_agree hs fun table =>
      fileStatIncrOpen (fileStatIncrOpen table filenameA (elapsedNs / 2)) filenameB (elapsedNs / 2)
  · exact cleaned_ok hs

theorem handleReadReturn_agree (hfd : s'.tmps.intA = s.tmps.intA) (stop : Stop) (sc : CInt) :
    cleaned (handleReadReturn s' stop sc) = cleaned (handleReadReturn s stop sc) := by
  rw [handleReadReturn, handleReadReturn, calcElapsedNs_agree hs, attributedFile_agree hs hfd]
  refine cleaned_congr _ fun elapsedNs => cleaned_congr _ fun filename => ?_
  exact fileStatTable_agree hs fun table =>
    fileStatIncrRead table filename elapsedNs (stop.user .RAX)

theorem handleWriteReturn_agree (hfd : s'.tmps.intA = s.tmps.intA) (stop : Stop) (sc : CInt) :
    cleaned (handleWriteReturn s' stop sc) = cleaned (handleWriteReturn s stop sc) := by
  rw [handleWriteReturn, handleWriteReturn, calcElapsedNs_agree hs, attributedFile_agree hs hfd]
  refine cleaned_congr _ fun elapsedNs => cleaned_congr _ fun filename => ?_
  exact fileStatTable_agree hs fun table =>
    fileStatIncrWrite table filename elapsedNs (stop.user .RAX)

/-- Both critical sections use the descriptor of the call. -/
theorem handleCloseReturn_agree (hfd : s'.tmps.intA = s.tmps.intA) (stop : Stop) (sc : CInt) :
    cleaned (handleCloseReturn s' stop sc) = cleaned (handleCloseReturn s stop sc) := by
  simp only [handleCloseReturn, handleCloseReturnCount, handleCloseReturnRemove, bind_assoc,
    calcElapsedNs_agree hs, attributedFile_agree hs hfd, ok_bind, locked_agree hs, hfd]
  refine cleaned_congr _ fun elapsedNs => cleaned_congr _ fun filename => ?_
  refine cleaned_congr _ fun heap => cleaned_ok ⟨rfl, hs.refs, hs.startTime, ?_, hs.syscallTable⟩
  exact congrArg (fileStatIncrClose · filename elapsedNs) hs.fileStatTable

theorem handleDupReturn_agree (hfd : s'.tmps.intA = s.tmps.intA) (stop : Stop) :
    handleDupReturn s'.heap s'.tmps stop = handleDupReturn s.heap s.tmps stop := by
  simp only [handleDupReturn, hs.heap, hs.refs.fdTable, hs.refs.fdMutex, hfd]

theorem handleFcntlReturn_agree (hfd : s'.tmps.intA = s.tmps.intA)
    (hcmd : s'.tmps.intB = s.tmps.intB) (harg : s'.tmps.intC = s.tmps.intC) (stop : Stop) :
    handleFcntlReturn s'.heap s'.tmps stop = handleFcntlReturn s.heap s.tmps stop := by
  simp only [handleFcntlReturn, hs.heap, hs.refs.fdTable, hs.refs.fdMutex, hfd, hcmd, harg]

theorem handleIoctlReturn_agree (hfd : s'.tmps.intA = s.tmps.intA)
    (hreq : s'.tmps.intB = s.tmps.intB) (stop : Stop) :
    handleIoctlReturn s'.heap s'.tmps stop = handleIoctlReturn s.heap s.tmps stop := by
  simp only [handleIoctlReturn, hs.heap, hs.refs.fdTable, hs.refs.fdMutex, hfd, hreq]

/-- An `execve` reads none of the scratch fields. -/
theorem handleExecveReturn_agree :
    cleaned (handleExecveReturn s'.heap s'.tmps >>= fun r =>
        .ok { s' with heap := r.1, tmps := r.2 }) =
      cleaned (handleExecveReturn s.heap s.tmps >>= fun r =>
        .ok { s with heap := r.1, tmps := r.2 }) := by
  obtain ⟨hheap, ⟨htable, hcount, hmutex⟩, htime, hfile, hsys⟩ := hs
  simp only [handleExecveReturn, hheap, htable, hcount, hmutex, bind_assoc, ok_bind]
  refine cleaned_congr _ fun n => ?_
  split_ifs with hn
  · simp only [bind_assoc]
    refine cleaned_congr _ fun heap => cleaned_congr _ fun r => ?_
    split_ifs
    · simp only [bind_assoc, ok_bind]
      refine cleaned_congr _ fun _ => cleaned_congr _ fun _ => cleaned_congr _ fun _ => ?_
      exact cleaned_ok ⟨rfl, ⟨rfl, rfl, rfl⟩, htime, hfile, hsys⟩
    · simp only [bind_assoc, ok_bind]
      refine cleaned_congr _ fun _ => cleaned_congr _ fun _ => ?_
      exact cleaned_ok ⟨rfl, ⟨rfl, rfl, rfl⟩, htime, hfile, hsys⟩
  · simp only [bind_assoc, ok_bind]
    refine cleaned_congr _ fun _ => ?_
    exact cleaned_ok ⟨rfl, ⟨htable, hcount, hmutex⟩, htime, hfile, hsys⟩

end Agree

/-- **The second switch** reads the fields that the first one wrote. -/
theorem handleUnconsideredSwitch_agree {s s' : Tracer} {c : Completed} (hs : s.Agree s')
    (hscr : c.Scratch s.tmps) (hscr' : c.Scratch s'.tmps) :
    cleaned (handleUnconsideredSwitch s' c.ret c.sc) =
      cleaned (handleUnconsideredSwitch s c.ret c.sc) := by
  unfold Completed.Scratch at hscr hscr'
  unfold handleUnconsideredSwitch
  cases hsc : sysno c.sc <;> simp only [hsc] at hscr hscr' ⊢
  case SYS_dup | SYS_dup2 | SYS_dup3 =>
    rw [handleDupReturn_agree hs (hscr'.trans hscr.symm)]
    exact cleaned_congr _ fun heap => heap_agree hs heap
  case SYS_fcntl =>
    rw [handleFcntlReturn_agree hs (hscr'.1.trans hscr.1.symm) (hscr'.2.1.trans hscr.2.1.symm)
      (hscr'.2.2.trans hscr.2.2.symm)]
    exact cleaned_congr _ fun heap => heap_agree hs heap
  case SYS_ioctl =>
    rw [handleIoctlReturn_agree hs (hscr'.1.trans hscr.1.symm) (hscr'.2.trans hscr.2.symm)]
    exact cleaned_congr _ fun heap => heap_agree hs heap
  case SYS_execve => exact handleExecveReturn_agree hs
  all_goals exact cleaned_ok hs

/-- **No return handler reads a field that its call handler has not written.** -/
theorem handleSyscallReturn_agree {s s' : Tracer} {c : Completed} (hs : s.Agree s')
    (hscr : c.Scratch s.tmps) (hscr' : c.Scratch s'.tmps) :
    cleaned (handleSyscallReturn s' c.ret c.sc) =
      cleaned (handleSyscallReturn s c.ret c.sc) := by
  have hother : cleaned (handleUnconsideredReturn s' c.ret c.sc >>= fun s =>
        handleUnconsideredSwitch s c.ret c.sc) =
      cleaned (handleUnconsideredReturn s c.ret c.sc >>= fun s =>
        handleUnconsideredSwitch s c.ret c.sc) := by
    simp only [handleUnconsideredReturn, calcElapsedNs_agree hs, bind_assoc, ok_bind]
    refine cleaned_congr _ fun elapsedNs => handleUnconsideredSwitch_agree ?_ hscr hscr'
    exact ⟨hs.heap, hs.refs, hs.startTime, hs.fileStatTable,
      congrArg (syscallStatIncr · c.sc elapsedNs) hs.syscallTable⟩
  unfold Completed.Scratch at hscr hscr'
  unfold handleSyscallReturn
  cases hsc : sysno c.sc <;> simp only [hsc] at hscr hscr' ⊢
  case SYS_open | SYS_openat =>
    rw [handleOpenReturn, handleOpenReturn, hscr.1, hscr'.1, hscr.2, hscr'.2]
    exact returnFd_agree hs _ _ _ _
  case SYS_close => exact handleCloseReturn_agree hs (hscr'.trans hscr.symm) _ _
  case SYS_read | SYS_readv | SYS_preadv | SYS_preadv2 | SYS_pread64 =>
    exact handleReadReturn_agree hs (hscr'.trans hscr.symm) _ _
  case SYS_write | SYS_writev | SYS_pwritev | SYS_pwritev2 | SYS_pwrite64 =>
    exact handleWriteReturn_agree hs (hscr'.trans hscr.symm) _ _
  case SYS_pipe | SYS_socketpair => exact returnPair_agree hs (hscr'.trans hscr.symm) _ _ _ _ _
  case SYS_pipe2 =>
    rw [handlePipeReturn, handlePipeReturn, hscr.2, hscr'.2]
    exact returnPair_agree hs (hscr'.1.trans hscr.1.symm) _ _ _ _ _
  case SYS_socket =>
    rw [handleSocketReturn, handleSocketReturn, hscr, hscr']
    exact returnFd_agree hs _ _ _ _
  case SYS_eventfd2 =>
    rw [handleEventfdReturn, handleEventfdReturn, hscr, hscr']
    exact returnFd_agree hs _ _ _ _
  case SYS_epoll_create1 =>
    rw [handleEpollcreateReturn, handleEpollcreateReturn, hscr, hscr']
    exact returnFd_agree hs _ _ _ _
  case SYS_accept4 =>
    rw [handleAcceptReturn, handleAcceptReturn, hscr, hscr']
    exact returnFd_agree hs _ _ _ _
  -- Without a flags argument, the scratch fields are not read at all.
  case SYS_eventfd | SYS_epoll_create | SYS_accept => exact returnFd_agree hs _ _ _ _
  all_goals exact hother

/-- **No scratch data of an earlier syscall matters:** from two records with the
same references, whatever their scratch fields hold, the two handlers of a
syscall abort alike, or leave the same tables and the same references. -/
theorem scratch_irrelevant (heap : Heap) (fileStat : FileStatTable) (syscalls : SyscallTable)
    (c : Completed) (tmps tmps' : ThreadTmps) (h : tmps.SameRefs tmps') :
    (∃ e, handleCompleted ⟨heap, tmps, fileStat, syscalls⟩ c = .error e ∧
      handleCompleted ⟨heap, tmps', fileStat, syscalls⟩ c = .error e) ∨
    ∃ s s', handleCompleted ⟨heap, tmps, fileStat, syscalls⟩ c = .ok s ∧
      handleCompleted ⟨heap, tmps', fileStat, syscalls⟩ c = .ok s' ∧ s.Agree s' := by
  rcases handleSyscallCall_outcome c tmps tmps' with ⟨e, hcall, hcall'⟩ | ⟨u, u', hcall, hcall'⟩
  · exact Or.inl ⟨e, by rw [handleCompleted, hcall]; rfl, by rw [handleCompleted, hcall']; rfl⟩
  · obtain ⟨hrefs, hscr, htime⟩ := handleSyscallCall_ok hcall
    obtain ⟨hrefs', hscr', htime'⟩ := handleSyscallCall_ok hcall'
    have hagree : Tracer.Agree ⟨heap, u, fileStat, syscalls⟩ ⟨heap, u', fileStat, syscalls⟩ :=
      { heap := rfl
        refs :=
          ⟨(hrefs'.fdTable.trans h.fdTable).trans hrefs.fdTable.symm,
            (hrefs'.shareCount.trans h.shareCount).trans hrefs.shareCount.symm,
            (hrefs'.fdMutex.trans h.fdMutex).trans hrefs.fdMutex.symm⟩
        startTime := Option.some.inj (htime'.symm.trans htime)
        fileStatTable := rfl
        syscallTable := rfl }
    rw [handleCompleted, handleCompleted, hcall, hcall', ok_bind, ok_bind]
    exact cleaned_eq_iff.mp (handleSyscallReturn_agree hagree hscr hscr')

/-- A `read` of 16 bytes from standard input, after syscalls that left other scratch data. -/
theorem scratch_irrelevant_read :
    ∃ s s',
      handleCompleted (Tracer.ofTable fdTableCreate) (.ofRegs 0 0 0 0 0 16 fun _ => none) = .ok s ∧
      handleCompleted
          { Tracer.ofTable fdTableCreate with tmps := ⟨⟨7, 7⟩, 7, 7, 7, 7, fun _ => 7, 0, 0, 0⟩ }
          (.ofRegs 0 0 0 0 0 16 fun _ => none) = .ok s' ∧ s.Agree s' := by
  rcases scratch_irrelevant (Tracer.ofTable fdTableCreate).heap ∅ ∅
      (.ofRegs 0 0 0 0 0 16 fun _ => none) (Tracer.ofTable fdTableCreate).tmps
      ⟨⟨7, 7⟩, 7, 7, 7, 7, fun _ => 7, 0, 0, 0⟩ ⟨rfl, rfl, rfl⟩ with ⟨e, he, -⟩ | hok
  · cases he
  · exact hok

end Iotrace
