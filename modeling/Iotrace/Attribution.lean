/-
# Which file a descriptor is attributed to

One tracee with a table of its own, followed over any run of completed syscalls
next to the kernel's table (`tracedStep`).  The tracer's table names every
descriptor after its latest creation as long as `PTRACE_PEEKDATA` can read the
arrays that `pipe`, `pipe2` and `socketpair` fill, and reads, writes and closes
are then charged to the file that the kernel's table says (`attribution`).

`handle_pipe_return` and `handle_socketpair_return` fetch each `int` of the array
as a word of eight bytes and do not look at the error.  Where the array ends at
the end of the mapped memory, the second word cannot be read, and the second
descriptor is entered under the number `-1`.
-/

import Iotrace.Refinement

namespace Iotrace

open Kernel Runs

/-- The file that the kernel's table says a descriptor belongs to, `"NULL"` where
it is not open. -/
def kernelFile (K : Kernel.Table) (fd : CInt) : CString :=
  ((K fd).map Descriptor.file).getD (cstr "NULL")

/-- The time between the two stops of a syscall. -/
def Completed.elapsedNs (c : Completed) : CULongLong :=
  match c.call.clock, c.ret.clock with
  | some startTime, some currentTime => currentTime.toNs - startTime.toNs
  | _, _ => 0

/-- The read, write and close calls, with what they add to the statistics of a file. -/
def Completed.charge (c : Completed) (file : CString) (fileStatTable : FileStatTable) :
    Option FileStatTable :=
  match sysno c.sc with
  | .SYS_read | .SYS_readv | .SYS_preadv | .SYS_preadv2 | .SYS_pread64 =>
    some (fileStatIncrRead fileStatTable file c.elapsedNs c.rax)
  | .SYS_write | .SYS_writev | .SYS_pwritev | .SYS_pwritev2 | .SYS_pwrite64 =>
    some (fileStatIncrWrite fileStatTable file c.elapsedNs c.rax)
  | .SYS_close => some (fileStatIncrClose fileStatTable file c.elapsedNs)
  | _ => none

/-- A read, write or close is charged to the file of its descriptor. -/
def Charged (p : Tracer × Kernel.Table) (c : Completed) : Prop :=
  ∀ fileStatTable, c.charge (kernelFile p.2 (c.arg .RDI)) p.1.fileStatTable = some fileStatTable →
    ∀ s', handleCompleted p.1 c = .ok s' → s'.fileStatTable = fileStatTable

/-- The tracer has an entry for exactly the open descriptors, and every entry has
the name of the descriptor's file. -/
def Attributes (p : Tracer × Kernel.Table) : Prop :=
  ∃ t, p.1.Holds t ∧ ∀ fd, fdTableLookup t fd = (p.2 fd).map Descriptor.file

/-- **A charge goes to the name in the table.** -/
theorem handleCompleted_charge {s s' : Tracer} {t : FdTable} {c : Completed} (hs : s.Holds t)
    (hc : c.Timed) {fileStatTable : FileStatTable}
    (hcharge : c.charge ((fdTableLookup t (c.arg .RDI)).getD (cstr "NULL")) s.fileStatTable =
      some fileStatTable) (h : handleCompleted s c = .ok s') :
    s'.fileStatTable = fileStatTable := by
  obtain ⟨start, hstart⟩ := Option.isSome_iff_exists.mp hc.call
  obtain ⟨now, hnow⟩ := Option.isSome_iff_exists.mp hc.ret
  have helapsed : c.elapsedNs = now.toNs - start.toNs := by
    rw [Completed.elapsedNs, hstart, hnow]
  have hr : c.Readable := by
    unfold Completed.charge at hcharge
    unfold Completed.Readable
    cases hsc : sysno c.sc <;> simp only [hsc] at hcharge ⊢ <;> cases hcharge
  obtain ⟨tmps, hcall, hrefs, hscr, htime⟩ := handleSyscallCall_scratch hstart hr s.tmps
  have hs₁ := hs.withTmps hrefs
  rw [handleCompleted, hcall, ok_bind] at h
  unfold Completed.charge at hcharge
  unfold Completed.Scratch at hscr
  unfold handleSyscallReturn at h
  cases hsc : sysno c.sc <;> simp only [hsc] at hcharge hscr h <;> try cases hcharge
  case SYS_read | SYS_readv | SYS_preadv | SYS_preadv2 | SYS_pread64 =>
    rw [handleReadReturn_of_holds hs₁ hnow] at h
    obtain rfl := Except.ok.inj h
    simp only [hscr, htime, helapsed]
    rfl
  case SYS_write | SYS_writev | SYS_pwritev | SYS_pwritev2 | SYS_pwrite64 =>
    rw [handleWriteReturn_of_holds hs₁ hnow] at h
    obtain rfl := Except.ok.inj h
    simp only [hscr, htime, helapsed]
    rfl
  case SYS_close =>
    rw [handleCloseReturn_of_holds hs₁ hnow] at h
    obtain rfl := Except.ok.inj h
    simp only [hscr, htime, helapsed]

/-- Where the names agree, charges go to the files of the kernel's table. -/
theorem Refines.charged {p : Tracer × Kernel.Table} {c : Completed}
    (h : Refines FdTableEntry.filename Descriptor.file p) (hc : c.Timed) : Charged p c := by
  obtain ⟨t, hs, hagree⟩ := h
  intro fileStatTable hcharge s' hstep
  have hfile : (fdTableLookup t (c.arg .RDI)).getD (cstr "NULL") =
      kernelFile p.2 (c.arg .RDI) := congrArg (Option.getD · _) (hagree _)
  exact handleCompleted_charge hs hc (by rw [hfile]; exact hcharge) hstep

/-- Attribution does not depend on the flags. -/
theorem Completed.flagSeen_true (c : Completed) : c.FlagSeen fun _ _ => True := by
  unfold FlagSeen
  split <;> simp

/-- **Name attribution refines the kernel's descriptors.**  Over every run in
scope of a tracee with a table of its own: as long as `PTRACE_PEEKDATA` can read
the arrays of `pipe`, `pipe2` and `socketpair`, no handler aborts, the table has
the name of the latest creation for exactly the open descriptors, and every
read, write and close is charged to that name; and where no descriptor is
negative to begin with, the first array that cannot be read ends this. -/
theorem attribution {s : Tracer} {t : FdTable} (hs : s.Holds t) (hfits : t.Fits)
    {l : List Completed}
    (hscope : Along tracedStep (fun p c => c.InScope p.2) (s, ofFdTable t) l) :
    (Along tracedStep (fun _ c => c.ArrayPeeked) (s, ofFdTable t) l →
      (∃ p, l.foldlM tracedStep (s, ofFdTable t) = .ok p) ∧
      Always tracedStep Attributes (s, ofFdTable t) l ∧
      Along tracedStep Charged (s, ofFdTable t) l) ∧
    (NonNegative (ofFdTable t) → Always tracedStep Attributes (s, ofFdTable t) l →
      Along tracedStep (fun _ c => c.ArrayPeeked) (s, ofFdTable t) l) := by
  have hstart : Refines FdTableEntry.filename Descriptor.file (s, ofFdTable t) :=
    Refines.start hs fun _ => rfl
  refine ⟨fun hpeek => ?_, fun hneg => ?_⟩
  · have hrun := hscope.and hpeek
    have hkeep : ∀ p c p', Refines FdTableEntry.filename Descriptor.file p ∧ p.1.Fits →
        c.InScope p.2 ∧ c.ArrayPeeked → tracedStep p c = .ok p' →
          Refines FdTableEntry.filename Descriptor.file p' ∧ p'.1.Fits := by
      rintro p c p' ⟨href, hfit⟩ ⟨hin, hp⟩ hstep
      obtain ⟨p'', hstep', hfit', -, -, hkeep, -⟩ := href.step View.names hfit hin
      obtain rfl := Except.ok.inj (hstep.symm.trans hstep')
      exact ⟨hkeep hp c.flagSeen_true, hfit'⟩
    refine ⟨?_, ?_, ?_⟩
    · refine Along.run_ok (fun _ _ h => h) (hrun.along hkeep ?_ ⟨hstart, hs.fits hfits⟩)
      intro p c hI hP
      obtain ⟨p', hstep, -⟩ := hI.1.step View.names hI.2 hP.1
      exact ⟨p', hstep⟩
    · exact (hrun.always hkeep ⟨hstart, hs.fits hfits⟩).mono fun p hp => hp.1
    · exact hrun.along hkeep (fun p c hI hP => hI.1.charged hP.1.1) ⟨hstart, hs.fits hfits⟩
  · refine (always_iff_along (I := fun p => Refines FdTableEntry.filename Descriptor.file p ∧
      p.1.Fits ∧ NonNegative p.2) (fun p hp => hp.1) ?_ hscope
        ⟨hstart, hs.fits hfits, hneg⟩).mp
    rintro p c ⟨href, hfit, hneg⟩ hin
    obtain ⟨p', hstep, hfit', -, hker, hkeep, hbreak⟩ := href.step View.names hfit hin
    refine ⟨p', hstep, fun hp => ⟨hkeep hp c.flagSeen_true, hfit', ?_⟩, hbreak hneg⟩
    rw [hker]
    exact c.kernelEffect_nonNegative hneg hin

/-- A tracee whose memory is mapped below `limit`, with the numbers 3 and 4 in an
array of two `int`s at `0x7ff8`. -/
def memoryBelow (limit : CLong) : Memory := fun a =>
  if a < limit then some (if a = 0x7ff8 then 3 else if a = 0x7ffc then 4 else 0) else none

/-- `pipe`, with that array. -/
def pipeBelow (limit : CLong) : Completed := .ofRegs 22 0x7ff8 0 0 0 0 (memoryBelow limit)

theorem pipeBelow_inScope (limit : CLong)
    (hA : intAt (memoryBelow limit) 0x7ff8 = some 3)
    (hB : intAt (memoryBelow limit) (0x7ff8 + 4) = some 4) (K : Kernel.Table) :
    (pipeBelow limit).InScope K :=
  ⟨⟨rfl, rfl⟩, trivial, fun _ => ⟨3, 4, hA, hB, by decide, by decide⟩⟩

/-- The array may lie anywhere below the last mapped word: a `pipe` and a read
from its read end. -/
theorem attribution_pipe :
    Always tracedStep Attributes (Tracer.ofTable fdTableCreate, ofFdTable fdTableCreate)
      [pipeBelow 0x9000, .ofRegs 0 3 0 0 0 16 fun _ => none] := by
  refine ((attribution (Tracer.ofTable_holds _) fdTableCreate_fits ?_).1 ?_).2.1
  · exact ⟨pipeBelow_inScope _ (by decide) (by decide) _, fun _ _ =>
      ⟨⟨⟨rfl, rfl⟩, trivial, trivial⟩, fun _ _ => trivial⟩⟩
  · exact ⟨fun _ => by decide, fun _ _ => ⟨trivial, fun _ _ => trivial⟩⟩

/-- **An array at the end of the mapped memory** loses the write end of a pipe. -/
theorem attribution_pipe_at_end :
    Along tracedStep (fun p c => c.InScope p.2)
      (Tracer.ofTable fdTableCreate, ofFdTable fdTableCreate) [pipeBelow 0x8000] ∧
    ¬Always tracedStep Attributes (Tracer.ofTable fdTableCreate, ofFdTable fdTableCreate)
      [pipeBelow 0x8000] := by
  have hin := pipeBelow_inScope 0x8000 (by decide) (by decide)
    (ofFdTable fdTableCreate)
  refine ⟨⟨hin, fun _ _ => trivial⟩, fun h => ?_⟩
  have hs := Tracer.ofTable_holds fdTableCreate
  have href : Refines FdTableEntry.filename Descriptor.file
      (Tracer.ofTable fdTableCreate, ofFdTable fdTableCreate) := Refines.start hs fun _ => rfl
  obtain ⟨p, hstep, -, -, -, -, hbreak⟩ := href.step View.names (hs.fits fdTableCreate_fits) hin
  have hpeek := hbreak NonNegative.fdTableCreate (h.2 p hstep)
  exact absurd (hpeek rfl) (by decide)

end Iotrace
