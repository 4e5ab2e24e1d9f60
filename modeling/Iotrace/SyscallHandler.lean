/-
# The syscall handlers

`src/syscall_handler.c`.  A tracer thread calls `handle_syscall_call` when its
tracee enters a syscall and `handle_syscall_return` when the syscall returns.
The call handlers keep arguments in the scratch fields of the `thread_tmps`
record; the return handlers read the result, change the descriptor table and
record the call in the statistics.

`Tracer` is what the handlers of one tracer thread work on: the record that
`thread_tmps_lookup(tracee)` finds, the heap it refers to and the thread's two
statistics tables.  A call handler changes the record only.  Handlers that
differ in a register, a label or a flag are instances of one definition
(`saveFd`, `returnFd`, `returnPair`).
-/

import Iotrace.FileStat
import Iotrace.UnconsideredSyscallStat
import Iotrace.ThreadTemporaries

namespace Iotrace

/-- `NANOS`. -/
def NANOS : CLong := 1000000000

/-- `PIPE_R`, the name of the read end of a pipe. -/
def PIPE_R : CString := cstr "pipe_r"

/-- `PIPE_W`, the name of the write end of a pipe. -/
def PIPE_W : CString := cstr "pipe_w"

/-- `SOCKET`. -/
def SOCKET : CString := cstr "socket"

/-- `EVENTFD`. -/
def EVENTFD : CString := cstr "eventfd"

/-- `EPOLL`. -/
def EPOLL : CString := cstr "epoll"

/-- `ACCEPT`. -/
def ACCEPT : CString := cstr "accept"

/-- `O_CLOEXEC` of `linux/fcntl.h`. -/
def O_CLOEXEC : CInt := 0x80000

/-- `SOCK_CLOEXEC` of `sys/socket.h`. -/
def SOCK_CLOEXEC : CInt := 0x80000

/-- `EFD_CLOEXEC` of `sys/eventfd.h`. -/
def EFD_CLOEXEC : CInt := 0x80000

/-- `EPOLL_CLOEXEC` of `sys/epoll.h`. -/
def EPOLL_CLOEXEC : CInt := 0x80000

/-- `FD_CLOEXEC` of `linux/fcntl.h`. -/
def FD_CLOEXEC : CInt := 1

/-- `F_DUPFD` of `linux/fcntl.h`. -/
def F_DUPFD : CInt := 0

/-- `F_DUPFD_CLOEXEC` of `linux/fcntl.h`. -/
def F_DUPFD_CLOEXEC : CInt := 1030

/-- `F_SETFD` of `linux/fcntl.h`. -/
def F_SETFD : CInt := 2

/-- `TIOCGPTPEER` of `sys/ioctl.h`. -/
def TIOCGPTPEER : CInt := 0x5441

/-- `(flags & bit) != 0`. -/
def hasBit (flags bit : CInt) : Bool := flags &&& bit != 0

/-- The `SYS_*` constants that the handlers name; `other` is any other number. -/
inductive Sysno where
  | SYS_read | SYS_write | SYS_open | SYS_close | SYS_ioctl | SYS_pread64 | SYS_pwrite64
  | SYS_readv | SYS_writev | SYS_pipe | SYS_dup | SYS_dup2 | SYS_socket | SYS_accept
  | SYS_socketpair | SYS_execve | SYS_fcntl | SYS_epoll_create | SYS_openat | SYS_eventfd
  | SYS_accept4 | SYS_eventfd2 | SYS_epoll_create1 | SYS_dup3 | SYS_pipe2 | SYS_preadv
  | SYS_pwritev | SYS_preadv2 | SYS_pwritev2 | other
  deriving DecidableEq

/-- The constant that a syscall number of x86-64 equals. -/
def sysno (sc : CInt) : Sysno :=
  if sc = 0 then .SYS_read else if sc = 1 then .SYS_write else if sc = 2 then .SYS_open
  else if sc = 3 then .SYS_close else if sc = 16 then .SYS_ioctl
  else if sc = 17 then .SYS_pread64 else if sc = 18 then .SYS_pwrite64
  else if sc = 19 then .SYS_readv else if sc = 20 then .SYS_writev
  else if sc = 22 then .SYS_pipe else if sc = 32 then .SYS_dup else if sc = 33 then .SYS_dup2
  else if sc = 41 then .SYS_socket else if sc = 43 then .SYS_accept
  else if sc = 53 then .SYS_socketpair else if sc = 59 then .SYS_execve
  else if sc = 72 then .SYS_fcntl else if sc = 213 then .SYS_epoll_create
  else if sc = 257 then .SYS_openat else if sc = 284 then .SYS_eventfd
  else if sc = 288 then .SYS_accept4 else if sc = 290 then .SYS_eventfd2
  else if sc = 291 then .SYS_epoll_create1 else if sc = 292 then .SYS_dup3
  else if sc = 293 then .SYS_pipe2 else if sc = 295 then .SYS_preadv
  else if sc = 296 then .SYS_pwritev else if sc = 327 then .SYS_preadv2
  else if sc = 328 then .SYS_pwritev2 else .other

/-- What the handlers of one tracer thread work on. -/
structure Tracer where
  heap : Heap
  tmps : ThreadTmps
  fileStatTable : FileStatTable
  syscallTable : SyscallTable

/-! ### Reading a file name -/

/-- `memcpy(dest + offset, &data, sizeof(data))`. -/
def memcpyWord (dest : ℕ → Byte) (offset : ℕ) (data : CLong) : ℕ → Byte := fun k =>
  if offset ≤ k ∧ k < offset + 8 then byteOf data (k - offset) else dest k

/-- The loop of `read_string` from word `i` on, with `n` words to go. -/
def readStringLoop (mem : Memory) (base : CLong) (maxLen : ℕ) :
    (n i : ℕ) → (ℕ → Byte) → CInt × (ℕ → Byte)
  | 0, _, dest => (0, fun k => if k = maxLen - 1 then 0 else dest k)
  | n + 1, i, dest =>
    match peekData mem (base + BitVec.ofNat 64 (i * 8)) with
    | none => (-1, dest)
    | some data =>
      let dest := memcpyWord dest (i * 8) data
      if (List.range 8).any fun j => dest (i * 8 + j) == 0 then (0, dest)
      else readStringLoop mem base maxLen n (i + 1) dest

/-- `read_string`: the result, and `dest` afterwards. -/
def readString (mem : Memory) (base : CLong) (dest : ℕ → Byte) (maxLen : ℕ) :
    CInt × (ℕ → Byte) :=
  readStringLoop mem base maxLen ((maxLen + 7) / 8) 0 dest

/-- The bytes `f i`, `f (i + 1)`, … before the first NUL, at most `n` of them. -/
def untilNul (f : ℕ → Option Byte) (i : ℕ) : ℕ → CString
  | 0 => []
  | n + 1 =>
    match f i with
    | some b => if b = 0 then [] else b :: untilNul f (i + 1) n
    | none => []

/-- The C string in a `char filename_buffer[FILENAME_BUFF_SIZE]`. -/
def bufferString (buffer : ℕ → Byte) : CString :=
  untilNul (fun i => some (buffer i)) 0 FILENAME_BUFF_SIZE

/-! ### Time -/

/-- A `struct timespec` in nanoseconds. -/
def Timespec.toNs (t : Timespec) : CULongLong := t.tvSec * NANOS + t.tvNsec

/-- `save_current_time`. -/
def saveCurrentTime (tmps : ThreadTmps) (stop : Stop) (sc : CInt) : Except Abort ThreadTmps :=
  match stop.clock with
  | some startTime => .ok { tmps with startTime }
  | none => .error (.exit "Error while reading start time of " sc)

/-- `calc_elapsed_ns`. -/
def calcElapsedNs (tmps : ThreadTmps) (stop : Stop) (sc : CInt) : Except Abort CULongLong :=
  match stop.clock with
  | some currentTime => .ok (currentTime.toNs - tmps.startTime.toNs)
  | none => .error (.exit "Error while reading end time of " sc)

/-! ### Shapes that several handlers share -/

/-- Keep the descriptor that a syscall is called on. -/
def saveFd (tmps : ThreadTmps) (stop : Stop) (sc : CInt) : Except Abort ThreadTmps :=
  saveCurrentTime { tmps with intA := toCInt (stop.user .RDI) } stop sc

/-- `fd_table_insert` on the table of the thread. -/
def insertFd (s : Tracer) (fd : CInt) (filename : CString) (cloexec : Bool) :
    Except Abort Tracer := do
  let heap ← s.heap.locked s.tmps.fdTable s.tmps.fdMutex fun t =>
    .ok (fdTableInsert t fd filename cloexec)
  .ok { s with heap }

/-- A syscall that returns a new descriptor: enter it, count an open. -/
def returnFd (s : Tracer) (stop : Stop) (sc : CInt) (filename : CString) (cloexec : Bool) :
    Except Abort Tracer := do
  let elapsedNs ← calcElapsedNs s.tmps stop sc
  let retFd := stop.user .RAX
  let s ← if 0 ≤ retFd.toInt then insertFd s (toCInt retFd) filename cloexec else .ok s
  .ok { s with fileStatTable := fileStatIncrOpen s.fileStatTable filename elapsedNs }

/-- A syscall that stores two new descriptors in the tracee's array `tmps->ptr`:
enter both, count two opens of half the time each. -/
def returnPair (s : Tracer) (stop : Stop) (sc : CInt) (filenameA filenameB : CString)
    (cloexec : Bool) : Except Abort Tracer := do
  let elapsedNs ← calcElapsedNs s.tmps stop sc
  if stop.user .RAX = 0 then
    let fdA := toCInt (peekDataUnchecked stop.mem s.tmps.ptr)
    let fdB := toCInt (peekDataUnchecked stop.mem (s.tmps.ptr + 4))
    let s ← insertFd s fdA filenameA cloexec
    let s ← insertFd s fdB filenameB cloexec
    let fileStatTable := fileStatIncrOpen s.fileStatTable filenameA (elapsedNs / 2)
    .ok { s with fileStatTable := fileStatIncrOpen fileStatTable filenameB (elapsedNs / 2) }
  else .ok s

/-- The file that `tmps->int_a` is attributed to, `"NULL"` where it has no entry. -/
def attributedFile (s : Tracer) : Except Abort CString := do
  let t ← s.heap.lockedTable s.tmps.fdTable s.tmps.fdMutex
  .ok ((fdTableLookup t s.tmps.intA).getD (cstr "NULL"))

/-! ### open, openat -/

/-- `handle_open_call`. -/
def handleOpenCall (tmps : ThreadTmps) (stop : Stop) (sc : CInt) (openat : Bool) :
    Except Abort ThreadTmps :=
  let nameReg := if openat then Reg.RSI else Reg.RDI
  let flagsReg := if openat then Reg.RDX else Reg.RSI
  let intA := toCInt (stop.user flagsReg)
  let (ret, filenameBuffer) :=
    readString stop.mem (stop.user nameReg) tmps.filenameBuffer FILENAME_BUFF_SIZE
  if ret = 0 then saveCurrentTime { tmps with intA, filenameBuffer } stop sc
  else .error (.exit "Error while reading filename of " sc)

/-- `handle_open_return`. -/
def handleOpenReturn (s : Tracer) (stop : Stop) (sc : CInt) : Except Abort Tracer :=
  returnFd s stop sc (bufferString s.tmps.filenameBuffer) (hasBit s.tmps.intA O_CLOEXEC)

/-! ### close -/

/-- `handle_close_call`. -/
def handleCloseCall (tmps : ThreadTmps) (stop : Stop) (sc : CInt) : Except Abort ThreadTmps :=
  saveFd tmps stop sc

/-- The first critical section of `handle_close_return`: look the name up, count a close. -/
def handleCloseReturnCount (s : Tracer) (stop : Stop) (sc : CInt) : Except Abort Tracer := do
  let elapsedNs ← calcElapsedNs s.tmps stop sc
  let filename ← attributedFile s
  .ok { s with fileStatTable := fileStatIncrClose s.fileStatTable filename elapsedNs }

/-- The second critical section of `handle_close_return`: `fd_table_remove`. -/
def handleCloseReturnRemove (s : Tracer) : Except Abort Tracer := do
  let heap ← s.heap.locked s.tmps.fdTable s.tmps.fdMutex fun t =>
    .ok (fdTableRemove t s.tmps.intA)
  .ok { s with heap }

/-- `handle_close_return`. -/
def handleCloseReturn (s : Tracer) (stop : Stop) (sc : CInt) : Except Abort Tracer := do
  let s ← handleCloseReturnCount s stop sc
  handleCloseReturnRemove s

/-! ### read, readv, preadv, preadv2, pread64 and their write counterparts -/

/-- `handle_read_call`. -/
def handleReadCall (tmps : ThreadTmps) (stop : Stop) (sc : CInt) : Except Abort ThreadTmps :=
  saveFd tmps stop sc

/-- `handle_read_return`. -/
def handleReadReturn (s : Tracer) (stop : Stop) (sc : CInt) : Except Abort Tracer := do
  let elapsedNs ← calcElapsedNs s.tmps stop sc
  let filename ← attributedFile s
  .ok { s with
    fileStatTable := fileStatIncrRead s.fileStatTable filename elapsedNs (stop.user .RAX) }

/-- `handle_write_call`. -/
def handleWriteCall (tmps : ThreadTmps) (stop : Stop) (sc : CInt) : Except Abort ThreadTmps :=
  saveFd tmps stop sc

/-- `handle_write_return`. -/
def handleWriteReturn (s : Tracer) (stop : Stop) (sc : CInt) : Except Abort Tracer := do
  let elapsedNs ← calcElapsedNs s.tmps stop sc
  let filename ← attributedFile s
  .ok { s with
    fileStatTable := fileStatIncrWrite s.fileStatTable filename elapsedNs (stop.user .RAX) }

/-! ### pipe, pipe2, socket, socketpair -/

/-- `handle_pipe_call`. -/
def handlePipeCall (tmps : ThreadTmps) (stop : Stop) (sc : CInt) (pipe2 : Bool) :
    Except Abort ThreadTmps :=
  let tmps := { tmps with ptr := stop.user .RDI }
  let tmps := if pipe2 then { tmps with intA := toCInt (stop.user .RSI) } else tmps
  saveCurrentTime tmps stop sc

/-- `handle_pipe_return`. -/
def handlePipeReturn (s : Tracer) (stop : Stop) (sc : CInt) (pipe2 : Bool) :
    Except Abort Tracer :=
  returnPair s stop sc PIPE_R PIPE_W (pipe2 && hasBit s.tmps.intA O_CLOEXEC)

/-- `handle_socket_call`. -/
def handleSocketCall (tmps : ThreadTmps) (stop : Stop) (sc : CInt) : Except Abort ThreadTmps :=
  saveCurrentTime { tmps with intA := toCInt (stop.user .RSI) } stop sc

/-- `handle_socket_return`. -/
def handleSocketReturn (s : Tracer) (stop : Stop) (sc : CInt) : Except Abort Tracer :=
  returnFd s stop sc SOCKET (hasBit s.tmps.intA SOCK_CLOEXEC)

/-- `handle_socketpair_call`. -/
def handleSocketpairCall (tmps : ThreadTmps) (stop : Stop) (sc : CInt) :
    Except Abort ThreadTmps :=
  saveCurrentTime { tmps with ptr := stop.user .R10 } stop sc

/-- `handle_socketpair_return`. -/
def handleSocketpairReturn (s : Tracer) (stop : Stop) (sc : CInt) : Except Abort Tracer :=
  returnPair s stop sc SOCKET SOCKET false

/-! ### eventfd, eventfd2, epoll_create, epoll_create1, accept, accept4 -/

/-- `handle_eventfd_call`. -/
def handleEventfdCall (tmps : ThreadTmps) (stop : Stop) (sc : CInt) (eventfd2 : Bool) :
    Except Abort ThreadTmps :=
  let tmps := if eventfd2 then { tmps with intA := toCInt (stop.user .RSI) } else tmps
  saveCurrentTime tmps stop sc

/-- `handle_eventfd_return`. -/
def handleEventfdReturn (s : Tracer) (stop : Stop) (sc : CInt) (eventfd2 : Bool) :
    Except Abort Tracer :=
  returnFd s stop sc EVENTFD (eventfd2 && hasBit s.tmps.intA EFD_CLOEXEC)

/-- `handle_epollcreate_call`. -/
def handleEpollcreateCall (tmps : ThreadTmps) (stop : Stop) (sc : CInt) (epollCreate1 : Bool) :
    Except Abort ThreadTmps :=
  let tmps := if epollCreate1 then { tmps with intA := toCInt (stop.user .RDI) } else tmps
  saveCurrentTime tmps stop sc

/-- `handle_epollcreate_return`. -/
def handleEpollcreateReturn (s : Tracer) (stop : Stop) (sc : CInt) (epollCreate1 : Bool) :
    Except Abort Tracer :=
  returnFd s stop sc EPOLL (epollCreate1 && hasBit s.tmps.intA EPOLL_CLOEXEC)

/-- `handle_accept_call`. -/
def handleAcceptCall (tmps : ThreadTmps) (stop : Stop) (sc : CInt) (accept4 : Bool) :
    Except Abort ThreadTmps :=
  let tmps := if accept4 then { tmps with intA := toCInt (stop.user .R10) } else tmps
  saveCurrentTime tmps stop sc

/-- `handle_accept_return`. -/
def handleAcceptReturn (s : Tracer) (stop : Stop) (sc : CInt) (accept4 : Bool) :
    Except Abort Tracer :=
  returnFd s stop sc ACCEPT (accept4 && hasBit s.tmps.intA SOCK_CLOEXEC)

/-! ### dup, dup2, dup3, fcntl, ioctl, execve -/

/-- `handle_dup_call`. -/
def handleDupCall (tmps : ThreadTmps) (stop : Stop) : ThreadTmps :=
  { tmps with intA := toCInt (stop.user .RDI) }

/-- `handle_dup_return`. -/
def handleDupReturn (heap : Heap) (tmps : ThreadTmps) (stop : Stop) : Except Abort Heap :=
  let retFd := toCInt (stop.user .RAX)
  if 0 ≤ tmps.intA.toInt ∧ tmps.intA ≠ retFd then
    heap.locked tmps.fdTable tmps.fdMutex (fdTableInsertDup tmps.intA retFd false false)
  else .ok heap

/-- `handle_fcntl_call`. -/
def handleFcntlCall (tmps : ThreadTmps) (stop : Stop) : ThreadTmps :=
  { tmps with
    intA := toCInt (stop.user .RDI)
    intB := toCInt (stop.user .RSI)
    intC := toCInt (stop.user .RDX) }

/-- `handle_fcntl_return`. -/
def handleFcntlReturn (heap : Heap) (tmps : ThreadTmps) (stop : Stop) : Except Abort Heap :=
  let retFd := toCInt (stop.user .RAX)
  if retFd ≠ -1 then
    if tmps.intB = F_DUPFD then
      heap.locked tmps.fdTable tmps.fdMutex (fdTableInsertDup tmps.intA retFd false false)
    else if tmps.intB = F_DUPFD_CLOEXEC then
      heap.locked tmps.fdTable tmps.fdMutex (fdTableInsertDup tmps.intA retFd true false)
    else if tmps.intB = F_SETFD then
      heap.locked tmps.fdTable tmps.fdMutex
        (fdTableSetCloexec tmps.intA (hasBit tmps.intC FD_CLOEXEC))
    else .ok heap
  else .ok heap

/-- `handle_ioctl_call`. -/
def handleIoctlCall (tmps : ThreadTmps) (stop : Stop) : ThreadTmps :=
  { tmps with intA := toCInt (stop.user .RDI), intB := toCInt (stop.user .RSI) }

/-- `handle_ioctl_return`. -/
def handleIoctlReturn (heap : Heap) (tmps : ThreadTmps) (stop : Stop) : Except Abort Heap :=
  if tmps.intB = TIOCGPTPEER then
    heap.locked tmps.fdTable tmps.fdMutex
      (fdTableInsertDup tmps.intA (toCInt (stop.user .RAX)) false true)
  else .ok heap

/-- `handle_execve_return`: give up the share of a table that others use too, and
go on with a copy of it, without the close-on-exec entries. -/
def handleExecveReturn (heap : Heap) (tmps : ThreadTmps) : Except Abort (Heap × ThreadTmps) := do
  let n ← heap.atomicGet tmps.shareCount
  let (heap, tmps) ←
    if n > 1 then do
      let fdCopy := heap.tables.next
      let heap ← heap.deepCopy tmps.fdTable tmps.fdMutex
      let (last, heap) ← heap.atomicDecAndTest tmps.shareCount
      let (heap, tmps) ←
        if last then do
          -- All other sharing partners unshared the table in the meantime.
          let heap ← heap.fdTableFree tmps.fdTable
          .ok (heap, tmps)
        else
          .ok (heap.allocShared,
            { tmps with shareCount := heap.counts.next, fdMutex := heap.mutexes.next })
      let tmps := { tmps with fdTable := fdCopy }
      let heap ← heap.atomicInc tmps.shareCount
      .ok (heap, tmps)
    else .ok (heap, tmps)
  let heap ← heap.locked tmps.fdTable tmps.fdMutex fun t => .ok (fdTableRemoveCloexec t)
  .ok (heap, tmps)

/-! ### The other syscalls, and the two switches -/

/-- `handle_unconsidered_call`. -/
def handleUnconsideredCall (tmps : ThreadTmps) (stop : Stop) (sc : CInt) :
    Except Abort ThreadTmps :=
  saveCurrentTime tmps stop sc

/-- `handle_unconsidered_return`. -/
def handleUnconsideredReturn (s : Tracer) (stop : Stop) (sc : CInt) : Except Abort Tracer := do
  let elapsedNs ← calcElapsedNs s.tmps stop sc
  .ok { s with syscallTable := syscallStatIncr s.syscallTable sc elapsedNs }

/-- `handle_syscall_call`. -/
def handleSyscallCall (tmps : ThreadTmps) (stop : Stop) (sc : CInt) : Except Abort ThreadTmps :=
  match sysno sc with
  | .SYS_open => handleOpenCall tmps stop sc false
  | .SYS_openat => handleOpenCall tmps stop sc true
  | .SYS_close => handleCloseCall tmps stop sc
  | .SYS_read | .SYS_readv | .SYS_preadv | .SYS_preadv2 | .SYS_pread64 =>
    handleReadCall tmps stop sc
  | .SYS_write | .SYS_writev | .SYS_pwritev | .SYS_pwritev2 | .SYS_pwrite64 =>
    handleWriteCall tmps stop sc
  | .SYS_pipe => handlePipeCall tmps stop sc false
  | .SYS_pipe2 => handlePipeCall tmps stop sc true
  | .SYS_socket => handleSocketCall tmps stop sc
  | .SYS_socketpair => handleSocketpairCall tmps stop sc
  | .SYS_eventfd => handleEventfdCall tmps stop sc false
  | .SYS_eventfd2 => handleEventfdCall tmps stop sc true
  | .SYS_epoll_create => handleEpollcreateCall tmps stop sc false
  | .SYS_epoll_create1 => handleEpollcreateCall tmps stop sc true
  | .SYS_accept => handleAcceptCall tmps stop sc false
  | .SYS_accept4 => handleAcceptCall tmps stop sc true
  | .SYS_dup | .SYS_dup2 | .SYS_dup3 => handleUnconsideredCall (handleDupCall tmps stop) stop sc
  | .SYS_fcntl => handleUnconsideredCall (handleFcntlCall tmps stop) stop sc
  | .SYS_ioctl => handleUnconsideredCall (handleIoctlCall tmps stop) stop sc
  | .SYS_execve | .other => handleUnconsideredCall tmps stop sc

/-- The second switch of `handle_syscall_return`. -/
def handleUnconsideredSwitch (s : Tracer) (stop : Stop) (sc : CInt) : Except Abort Tracer :=
  match sysno sc with
  | .SYS_dup | .SYS_dup2 | .SYS_dup3 => do
    let heap ← handleDupReturn s.heap s.tmps stop
    .ok { s with heap }
  | .SYS_fcntl => do
    let heap ← handleFcntlReturn s.heap s.tmps stop
    .ok { s with heap }
  | .SYS_execve => do
    let (heap, tmps) ← handleExecveReturn s.heap s.tmps
    .ok { s with heap, tmps }
  | .SYS_ioctl => do
    let heap ← handleIoctlReturn s.heap s.tmps stop
    .ok { s with heap }
  | _ => .ok s

/-- `handle_syscall_return`. -/
def handleSyscallReturn (s : Tracer) (stop : Stop) (sc : CInt) : Except Abort Tracer :=
  match sysno sc with
  | .SYS_open => handleOpenReturn s stop sc
  | .SYS_openat => handleOpenReturn s stop sc
  | .SYS_close => handleCloseReturn s stop sc
  | .SYS_read | .SYS_readv | .SYS_preadv | .SYS_preadv2 | .SYS_pread64 =>
    handleReadReturn s stop sc
  | .SYS_write | .SYS_writev | .SYS_pwritev | .SYS_pwritev2 | .SYS_pwrite64 =>
    handleWriteReturn s stop sc
  | .SYS_pipe => handlePipeReturn s stop sc false
  | .SYS_pipe2 => handlePipeReturn s stop sc true
  | .SYS_socket => handleSocketReturn s stop sc
  | .SYS_socketpair => handleSocketpairReturn s stop sc
  | .SYS_eventfd => handleEventfdReturn s stop sc false
  | .SYS_eventfd2 => handleEventfdReturn s stop sc true
  | .SYS_epoll_create => handleEpollcreateReturn s stop sc false
  | .SYS_epoll_create1 => handleEpollcreateReturn s stop sc true
  | .SYS_accept => handleAcceptReturn s stop sc false
  | .SYS_accept4 => handleAcceptReturn s stop sc true
  | _ => do
    let s ← handleUnconsideredReturn s stop sc
    handleUnconsideredSwitch s stop sc

/-- A syscall of the tracee that has returned: its entry stop and its exit stop. -/
structure Completed where
  call : Stop
  ret : Stop

/-- The syscall number that `start_tracer` reads at the entry stop. -/
def Completed.sc (c : Completed) : CInt := toCInt (c.call.user .ORIG_RAX)

/-- A completed syscall with the given number, arguments and result, in a tracee
whose memory does not change meanwhile. -/
def Completed.ofRegs (sc : CLong) (rdi rsi rdx r10 rax : CLong) (mem : Memory) : Completed where
  call := { user := user sc, mem, clock := some ⟨0, 0⟩ }
  ret := { user := user rax, mem, clock := some ⟨0, 0⟩ }
where
  /-- The registers: `RAX` is read at the return and `ORIG_RAX` at the call. -/
  user (v : CLong) : Reg → CLong
    | .RDI => rdi
    | .RSI => rsi
    | .RDX => rdx
    | .R10 => r10
    | .RAX | .ORIG_RAX => v

/-- One round of the loop of `start_tracer`: the call handler, then the return handler. -/
def handleCompleted (s : Tracer) (c : Completed) : Except Abort Tracer := do
  let tmps ← handleSyscallCall s.tmps c.call c.sc
  handleSyscallReturn { s with tmps } c.ret c.sc

end Iotrace
