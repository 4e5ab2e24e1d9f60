/-
# What the tracer sees of a stopped tracee, and how the tracer itself can fail

At a syscall stop the tracer reads registers with `PTRACE_PEEKUSER`, words of
the tracee's memory with `PTRACE_PEEKDATA` and the clock (`Stop`).

`Abort` collects the ways in which a function of the tracer does not return: the
`exit(1)` calls of the source, with the text they print, and the accesses whose
behaviour C leaves undefined.  A model function that reaches one returns it in
place of a result.
-/

import Iotrace.CTypes
import Iotrace.Library.Outcome

namespace Iotrace

/-- The registers of `sys/reg.h` that the tracer reads. -/
inductive Reg where
  | RAX | RDI | RSI | RDX | R10 | ORIG_RAX
  deriving DecidableEq

/-- `struct timespec`. -/
structure Timespec where
  tvSec : CLong
  tvNsec : CLong
  deriving DecidableEq

/-- A stopped tracee and the clock at that moment; `clock` is `none` where
`clock_gettime` fails. -/
structure Stop where
  user : Reg → CLong
  mem : Memory
  clock : Option Timespec

/-- How a function of the tracer ends without returning. -/
inductive Abort where
  /-- `fprintf(stderr, "<message>%s", syscall_names[sc]); exit(1)`. -/
  | exit (message : String) (sc : CInt)
  /-- A member of a `NULL` entry is accessed. -/
  | nullDereference
  /-- A string is copied into a buffer that is too small for it. -/
  | bufferOverflow
  /-- An object is accessed, locked or freed after its release. -/
  | useAfterFree
  deriving DecidableEq

/-- `Abort`, or a result: sequencing after a result. -/
@[simp] theorem ok_bind {α β : Type} (a : α) (f : α → Except Abort β) :
    (Except.ok a >>= f) = f a := rfl

/-- Sequencing after an abort. -/
@[simp] theorem error_bind {α β : Type} (e : Abort) (f : α → Except Abort β) :
    ((Except.error e : Except Abort α) >>= f) = .error e := rfl

@[simp] theorem pure_eq_ok {α : Type} (a : α) : (pure a : Except Abort α) = .ok a := rfl

/-- A sequence that returns has an intermediate result. -/
theorem bind_eq_ok {α β : Type} {x : Except Abort α} {f : α → Except Abort β} {b : β} :
    (x >>= f) = .ok b ↔ ∃ a, x = .ok a ∧ f a = .ok b := by
  cases x with
  | error e => simp
  | ok a => simp

/-- Two sequences that begin with the same computation. -/
theorem bind_map_congr {α β γ : Type} {x : Except Abort α} {f : α → Except Abort β}
    {g : α → Except Abort γ} {k : γ → β} (h : ∀ a, f a = (g a).map k) :
    x >>= f = (x >>= g).map k := by
  cases x with
  | error e => rfl
  | ok a => exact h a

/-- A result with `Q`, or an abort other than a buffer overflow. -/
abbrev Ensures {α : Type} (Q : α → Prop) : Except Abort α → Prop :=
  Outcome.Ends Q fun e => e ≠ Abort.bufferOverflow

end Iotrace
