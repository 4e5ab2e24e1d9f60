/-
# The kernel's descriptor table

An abstract model of what the handlers follow: a table in the kernel that maps
descriptor numbers to the file they were created for and to their `FD_CLOEXEC`
flag, and the effect of each syscall on it as the Linux interface describes it
(`Completed.kernelEffect`).  Nothing here is translated from the tracer; the
effect is read from the registers at the two stops and from the array that
`pipe` and `socketpair` fill.

A descriptor's *file* is the name that its creation gives it: the path, cut to
255 bytes, for `open` and `openat`; a fixed label for pipes, sockets, event and
epoll descriptors; the file of the source for a duplicate; the slave variant of
the master's for the peer of a pseudoterminal.  `close` releases the number
whatever it returns: Linux has taken the descriptor out of the table before it
reports an error, and with `EBADF` there was none.
-/

import Iotrace.TableEffect
import Mathlib.Logic.Function.Basic

namespace Iotrace
namespace Kernel

/-- An open descriptor. -/
structure Descriptor where
  file : CString
  cloexec : Bool
  deriving DecidableEq

/-- The open descriptors of a process. -/
abbrev Table := CInt → Option Descriptor

/-- What a syscall does to the table. -/
inductive Effect where
  | nothing
  | opens (fd : CInt) (file : CString) (cloexec : Bool)
  | opensPair (fdA : CInt) (fileA : CString) (fdB : CInt) (fileB : CString) (cloexec : Bool)
  | closes (fd : CInt)
  | dups (old new : CInt) (cloexec : Bool)
  | peers (master new : CInt) (cloexec : Bool)
  | setsCloexec (fd : CInt) (cloexec : Bool)

/-- The table after an effect. -/
def Effect.apply (K : Table) : Effect → Table
  | .nothing => K
  | .opens fd file cloexec => Function.update K fd (some ⟨file, cloexec⟩)
  | .opensPair fdA fileA fdB fileB cloexec =>
    Function.update (Function.update K fdA (some ⟨fileA, cloexec⟩)) fdB (some ⟨fileB, cloexec⟩)
  | .closes fd => Function.update K fd none
  | .dups old new cloexec => Function.update K new ((K old).map fun d => ⟨d.file, cloexec⟩)
  | .peers master new cloexec =>
    Function.update K new ((K master).map fun d => ⟨slaveName d.file, cloexec⟩)
  | .setsCloexec fd cloexec => Function.update K fd ((K fd).map fun d => { d with cloexec })

/-- The table after a successful `execve`, which closes the flagged descriptors. -/
def execve (K : Table) : Table := fun fd => (K fd).filter fun d => !d.cloexec

/-- The kernel table that a descriptor table of the tracer describes. -/
def ofFdTable (t : FdTable) : Table := fun fd =>
  (t.lookup fd).map fun entry => ⟨entry.filename, entry.cloexec⟩

end Kernel

open Kernel

namespace Completed

/-- A syscall that returns a descriptor. -/
def opensOf (c : Completed) (file : CString) (cloexec : Bool) : Effect :=
  if 0 ≤ c.rax.toInt then .opens (toCInt c.rax) file cloexec else .nothing

/-- A syscall that stores two descriptors at `ptr`. -/
def opensPairOf (c : Completed) (ptr : CLong) (fileA fileB : CString) (cloexec : Bool) : Effect :=
  if c.rax = 0 then
    match intAt c.ret.mem ptr, intAt c.ret.mem (ptr + 4) with
    | some fdA, some fdB => .opensPair fdA fileA fdB fileB cloexec
    | _, _ => .nothing
  else .nothing

/-- A syscall that duplicates the descriptor of its first argument; `dup2` of a
descriptor onto itself does nothing. -/
def dupsOf (c : Completed) (cloexec : Bool) : Effect :=
  if 0 ≤ c.rax.toInt ∧ c.arg .RDI ≠ toCInt c.rax then .dups (c.arg .RDI) (toCInt c.rax) cloexec
  else .nothing

/-- What a completed syscall, `execve` excepted, does to the kernel's table. -/
def kernelEffect (c : Completed) : Effect :=
  match sysno c.sc with
  | .SYS_open => c.opensOf (c.path .RDI) (hasBit (c.arg .RSI) O_CLOEXEC)
  | .SYS_openat => c.opensOf (c.path .RSI) (hasBit (c.arg .RDX) O_CLOEXEC)
  | .SYS_close => .closes (c.arg .RDI)
  | .SYS_pipe => c.opensPairOf (c.call.user .RDI) PIPE_R PIPE_W false
  | .SYS_pipe2 => c.opensPairOf (c.call.user .RDI) PIPE_R PIPE_W (hasBit (c.arg .RSI) O_CLOEXEC)
  | .SYS_socket => c.opensOf SOCKET (hasBit (c.arg .RSI) SOCK_CLOEXEC)
  | .SYS_socketpair =>
    c.opensPairOf (c.call.user .R10) SOCKET SOCKET (hasBit (c.arg .RSI) SOCK_CLOEXEC)
  | .SYS_eventfd => c.opensOf EVENTFD false
  | .SYS_eventfd2 => c.opensOf EVENTFD (hasBit (c.arg .RSI) EFD_CLOEXEC)
  | .SYS_epoll_create => c.opensOf EPOLL false
  | .SYS_epoll_create1 => c.opensOf EPOLL (hasBit (c.arg .RDI) EPOLL_CLOEXEC)
  | .SYS_accept => c.opensOf ACCEPT false
  | .SYS_accept4 => c.opensOf ACCEPT (hasBit (c.arg .R10) SOCK_CLOEXEC)
  | .SYS_dup | .SYS_dup2 => c.dupsOf false
  | .SYS_dup3 => c.dupsOf (hasBit (c.arg .RDX) O_CLOEXEC)
  | .SYS_fcntl =>
    if 0 ≤ c.rax.toInt then
      if c.arg .RSI = F_DUPFD then .dups (c.arg .RDI) (toCInt c.rax) false
      else if c.arg .RSI = F_DUPFD_CLOEXEC then .dups (c.arg .RDI) (toCInt c.rax) true
      else if c.arg .RSI = F_SETFD then
        .setsCloexec (c.arg .RDI) (hasBit (c.arg .RDX) FD_CLOEXEC)
      else .nothing
    else .nothing
  | .SYS_ioctl =>
    if 0 ≤ c.rax.toInt ∧ c.arg .RSI = TIOCGPTPEER then
      .peers (c.arg .RDI) (toCInt c.rax) (hasBit (c.arg .RDX) O_CLOEXEC)
    else .nothing
  | _ => .nothing

/-- The syscall returned a value that is no error, an `int`. -/
def Succeeds (c : Completed) : Prop := 0 ≤ c.rax.toInt ∧ c.rax.toInt < 2 ^ 31

/-- The syscall returned `-errno`. -/
def FailsWith (c : Completed) (errno : ℤ) : Prop :=
  1 ≤ errno ∧ errno ≤ 4095 ∧ c.rax.toInt = -errno

/-- The kernel has stored two descriptor numbers in the array at `ptr`. -/
def Stores (c : Completed) (ptr : CLong) : Prop :=
  ∃ fdA fdB, intAt c.ret.mem ptr = some fdA ∧ intAt c.ret.mem (ptr + 4) = some fdB ∧
    0 ≤ fdA.toInt ∧ 0 ≤ fdB.toInt

/-- `PTRACE_PEEKDATA` can read the second `int` of the array at `ptr`: the four
bytes behind the array are mapped too. -/
def PeeksSecond (c : Completed) (ptr : CLong) : Prop := (peekData c.ret.mem (ptr + 4)).isSome

instance (c : Completed) (ptr : CLong) : Decidable (c.PeeksSecond ptr) :=
  inferInstanceAs (Decidable ((peekData c.ret.mem (ptr + 4)).isSome = true))

end Completed

/-- The low half of a result that is an `int` is that `int`. -/
theorem toCInt_toInt {x : CLong} (h₀ : 0 ≤ x.toInt) (h : x.toInt < 2 ^ 31) :
    (toCInt x).toInt = x.toInt := by
  rw [toCInt, BitVec.toInt_setWidth]
  have hx : (x.toNat : ℤ) = x.toInt := by
    rw [BitVec.toInt_eq_toNat_of_msb]
    rw [BitVec.msb_eq_toInt]
    simpa using h₀
  rw [hx]
  exact Int.bmod_eq_of_le (by omega) (by omega)

/-- A result that is an `int` and no error does not look like `-1`. -/
theorem toCInt_ne_neg_one {x : CLong} (h₀ : 0 ≤ x.toInt) (h : x.toInt < 2 ^ 31) :
    toCInt x ≠ -1 := by
  intro heq
  have hval := toCInt_toInt h₀ h
  rw [heq] at hval
  have hneg : (-1 : CInt).toInt = -1 := by decide
  omega

/-- A failed syscall leaves a negative number in the low half of the register. -/
theorem Completed.FailsWith.toCInt_rax {c : Completed} {errno : ℤ} (h : c.FailsWith errno) :
    (toCInt c.rax).toInt = -errno := by
  obtain ⟨h₁, h₂, hrax⟩ := h
  rw [toCInt, BitVec.toInt_setWidth]
  have hx : (c.rax.toNat : ℤ) = 2 ^ 64 - errno := by
    have hdef := BitVec.toInt_eq_toNat_cond c.rax
    have hlt := c.rax.isLt
    rw [hrax] at hdef
    split_ifs at hdef <;> omega
  rw [hx, Int.bmod_def]
  omega

end Iotrace
