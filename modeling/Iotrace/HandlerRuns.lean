/-
# Runs of the handlers, one critical section at a time

All tracer threads of a trace, each in the loop of `start_tracer`: it calls
`handle_syscall_call`, later `handle_syscall_return` with the same number, and in
between it may start the thread of a new child.

A return handler that locks the mutex of its table more than once is taken apart
(`handlerSection`), since other threads may get hold of the table in between:
`handle_close_return`, the handlers of two new descriptors, and
`handle_execve_return`, whose atomic steps are those of `Iotrace.ThreadSteps`.  In a
row the sections are `handle_syscall_return` (`handlerSections_eq`).
-/

import Iotrace.Threads
import Iotrace.ThreadSteps

namespace Iotrace

/-- What is left to do for the second of two new descriptors. -/
structure SecondFd where
  fdB : CInt
  filenameA : CString
  filenameB : CString
  cloexec : Bool
  elapsedNs : CULongLong

/-- Where a tracer thread stands between two critical sections. -/
inductive HandlerStage where
  /-- Before the next call handler. -/
  | idle
  /-- After the call handler. -/
  | entered (syscall : CInt)
  /-- In `handle_close_return`, before `fd_table_remove`. -/
  | removing
  /-- In a handler of two new descriptors, before the second `fd_table_insert`. -/
  | pairing (second : SecondFd)
  /-- In `handle_execve_return`. -/
  | unsharing (pc : Pc)

/-- `returnPair` up to its second `fd_table_insert`. -/
def returnPairFirst (s : Tracer) (stop : Stop) (sc : CInt) (filenameA filenameB : CString)
    (cloexec : Bool) : Except Abort (Tracer × HandlerStage) := do
  let elapsedNs ← calcElapsedNs s.tmps stop sc
  if stop.user .RAX = 0 then
    let fdA := toCInt (peekDataUnchecked stop.mem s.tmps.ptr)
    let fdB := toCInt (peekDataUnchecked stop.mem (s.tmps.ptr + 4))
    let s ← insertFd s fdA filenameA cloexec
    .ok (s, .pairing ⟨fdB, filenameA, filenameB, cloexec, elapsedNs⟩)
  else .ok (s, .idle)

/-- The rest of `returnPair`. -/
def returnPairSecond (s : Tracer) (second : SecondFd) : Except Abort Tracer := do
  let s ← insertFd s second.fdB second.filenameB second.cloexec
  let fileStatTable :=
    fileStatIncrOpen s.fileStatTable second.filenameA (second.elapsedNs / 2)
  .ok { s with
    fileStatTable := fileStatIncrOpen fileStatTable second.filenameB (second.elapsedNs / 2) }

/-- The next critical section of a return handler, with what comes before and after it. -/
def handlerSection (stage : HandlerStage) (stop : Stop) (s : Tracer) :
    Except Abort (Tracer × HandlerStage) :=
  match stage with
  | .idle => .ok (s, .idle)
  | .entered syscall =>
    match sysno syscall with
    | .SYS_close => do
      let s ← handleCloseReturnCount s stop syscall
      .ok (s, .removing)
    | .SYS_pipe => returnPairFirst s stop syscall PIPE_R PIPE_W false
    | .SYS_pipe2 =>
      returnPairFirst s stop syscall PIPE_R PIPE_W (hasBit s.tmps.intA O_CLOEXEC)
    | .SYS_socketpair => returnPairFirst s stop syscall SOCKET SOCKET false
    | .SYS_execve => do
      let s ← handleUnconsideredReturn s stop syscall
      .ok (s, .unsharing .execve)
    | _ => do
      let s ← handleSyscallReturn s stop syscall
      .ok (s, .idle)
  | .removing => do
    let s ← handleCloseReturnRemove s
    .ok (s, .idle)
  | .pairing second => do
    let s ← returnPairSecond s second
    .ok (s, .idle)
  | .unsharing pc => do
    let (heap, l) ← threadStep s.heap ⟨s.tmps, pc⟩
    .ok ({ s with heap, tmps := l.tmps }, if l.pc = .done then .idle else .unsharing l.pc)

/-- Critical sections in a row. -/
def handlerSections (stop : Stop) : ℕ → Tracer × HandlerStage → Except Abort (Tracer × HandlerStage)
  | 0, r => .ok r
  | n + 1, r => handlerSection r.2 stop r.1 >>= handlerSections stop n

theorem handlerSections_idle (stop : Stop) (n : ℕ) (s : Tracer) :
    handlerSections stop n (s, .idle) = .ok (s, .idle) := by
  induction n with
  | zero => rfl
  | succ n ih => simpa only [handlerSections, handlerSection, ok_bind] using ih

/-- The steps of `handle_execve_return` in a row. -/
theorem handlerSections_unsharing (stop : Stop) (n : ℕ) (s : Tracer) {pc : Pc} (hpc : pc ≠ .done) :
    handlerSections stop n (s, .unsharing pc) =
      (threadSteps n (s.heap, ⟨s.tmps, pc⟩)).map fun r =>
        ({ s with heap := r.1, tmps := r.2.tmps },
          if r.2.pc = .done then .idle else .unsharing r.2.pc) := by
  induction n generalizing s pc with
  | zero => simp [handlerSections, threadSteps, Except.map, hpc]
  | succ n ih =>
      simp only [handlerSections, handlerSection, threadSteps, bind_assoc, ok_bind]
      refine bind_map_congr fun r => ?_
      obtain ⟨heap, l⟩ := r
      by_cases hl : l.pc = .done
      · rw [threadSteps_of_finished n heap (Or.inl hl)]
        simp only [hl, if_true]
        rw [handlerSections_idle]
        simp [Except.map, hl]
      · simp only [hl, if_false]
        exact ih _ hl

/-- The two sections of a handler of two new descriptors. -/
theorem handlerSections_pair (stop : Stop) (n : ℕ) (s : Tracer) (sc : CInt)
    (filenameA filenameB : CString) (cloexec : Bool) :
    returnPairFirst s stop sc filenameA filenameB cloexec >>= handlerSections stop (n + 1) =
      (returnPair s stop sc filenameA filenameB cloexec).map fun s => (s, .idle) := by
  rw [returnPairFirst, returnPair, bind_assoc]
  refine bind_map_congr fun elapsedNs => ?_
  split_ifs
  · simp only [bind_assoc, ok_bind]
    refine bind_map_congr fun s₁ => ?_
    simp only [handlerSections, handlerSection, returnPairSecond, bind_assoc, ok_bind]
    refine bind_map_congr fun s₂ => ?_
    exact handlerSections_idle stop n _
  · exact handlerSections_idle stop (n + 1) s

/-- **The sections in a row are `handle_syscall_return`.** -/
theorem handlerSections_eq (stop : Stop) (s : Tracer) (syscall : CInt) :
    handlerSections stop 7 (s, .entered syscall) =
      (handleSyscallReturn s stop syscall).map fun s => (s, .idle) := by
  have hsingle : ∀ x : Except Abort Tracer,
      (x >>= fun s => Except.ok (s, HandlerStage.idle)) >>= handlerSections stop 6 =
        x.map fun s => (s, .idle) := by
    intro x
    cases x with
    | error e => rfl
    | ok s => exact handlerSections_idle stop 6 s
  show handlerSection (.entered syscall) stop s >>= handlerSections stop 6 = _
  cases hsc : sysno syscall <;> simp only [handlerSection, hsc]
  case SYS_close =>
    simp only [handleSyscallReturn, hsc, handleCloseReturn, bind_assoc, ok_bind]
    refine bind_map_congr fun s₁ => ?_
    simp only [handlerSections, handlerSection, bind_assoc, ok_bind]
    refine (bind_map_congr fun s₂ => ?_).trans (congrArg _ (bind_pure _))
    rfl
  case SYS_pipe | SYS_pipe2 | SYS_socketpair =>
    rw [handlerSections_pair]
    simp only [handleSyscallReturn, hsc, handlePipeReturn, handleSocketpairReturn,
      Bool.false_and, Bool.true_and]
  case SYS_execve =>
    simp only [handleSyscallReturn, hsc, bind_assoc, ok_bind]
    refine bind_map_congr fun s₁ => ?_
    rw [handlerSections_unsharing stop 6 s₁ (by decide), threadSteps_execve,
      handleUnconsideredSwitch, hsc]
    cases handleExecveReturn s₁.heap s₁.tmps <;> rfl
  all_goals exact hsingle _

/-! ### All threads -/

/-- A tracer thread: its statistics and where it stands. -/
structure HandlerThread where
  fileStatTable : FileStatTable
  syscallTable : SyscallTable
  stage : HandlerStage

/-- `start_tracer` before its loop. -/
def HandlerThread.start : HandlerThread := ⟨fileStatCreate, syscallStatCreate, .idle⟩

/-- The records and tables, and the threads, by the ids of their tracees. -/
structure HandlerRun where
  world : World
  thread : CInt → HandlerThread

/-- A step of some tracer thread. -/
inductive HandlerStep where
  /-- The call handler, with the number that is read at the entry stop. -/
  | call (tracee : CInt) (stop : Stop)
  /-- The next critical section of the return handler. -/
  | handle (tracee : CInt) (stop : Stop)
  /-- `threads_add`, at an event of `tracee`. -/
  | threadsAdd (child tracee cloneFlags : CInt)
  /-- `thread_func` up to the loop of `start_tracer`. -/
  | threadFunc (tracee : CInt) (block : ThreadTmps)
  /-- The end of `start_tracer`. -/
  | tracerEnd (tracee : CInt)

namespace HandlerRun

/-- The main thread before its loop. -/
def start (world : World) : HandlerRun := ⟨world, fun _ => .start⟩

/-- What the handlers of a thread work on, if its record is found. -/
def tracer (s : HandlerRun) (tracee : CInt) : Except Abort Tracer :=
  match threadTmpsLookup s.world.process tracee with
  | none => .error .nullDereference
  | some tmps =>
    .ok ⟨s.world.process.heap, tmps, (s.thread tracee).fileStatTable,
      (s.thread tracee).syscallTable⟩

/-- The state after a handler or a part of it. -/
def put (s : HandlerRun) (tracee : CInt) (r : Tracer × HandlerStage) : HandlerRun where
  world := { s.world with
    process := ⟨r.1.heap, s.world.process.threadTmpsTable.insert tracee r.1.tmps⟩ }
  thread := Function.update s.thread tracee ⟨r.1.fileStatTable, r.1.syscallTable, r.2⟩

/-- One step.  A thread that stands elsewhere or has not been started does nothing. -/
def step (s : HandlerRun) : HandlerStep → Except Abort HandlerRun
  | .call tracee stop =>
    match (s.thread tracee).stage with
    | .idle => do
      let t ← s.tracer tracee
      let syscall := toCInt (stop.user .ORIG_RAX)
      let tmps ← handleSyscallCall t.tmps stop syscall
      .ok (s.put tracee ({ t with tmps }, .entered syscall))
    | _ => .ok s
  | .handle tracee stop =>
    match (s.thread tracee).stage with
    | .idle => .ok s
    | stage => do
      let t ← s.tracer tracee
      let r ← handlerSection stage stop t
      .ok (s.put tracee r)
  | .threadsAdd child tracee cloneFlags => do
    let world ← Iotrace.threadsAdd s.world child tracee cloneFlags
    .ok { s with world }
  | .threadFunc tracee block =>
    match s.world.started.lookup tracee with
    | none => .ok s
    | some _ => do
      let world ← Iotrace.threadFunc s.world tracee block
      .ok ⟨world, Function.update s.thread tracee .start⟩
  | .tracerEnd tracee => do
    let world ← Iotrace.tracerEnd s.world tracee
    .ok { s with world }

end HandlerRun

end Iotrace
