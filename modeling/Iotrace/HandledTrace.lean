/-
# A trace in the view of the handlers

The tracer next to the processes that it traces, where a syscall has its effect on the
kernel's descriptors when its return is handled (`Handled.step`).  At a new child the
thread of its parent puts its table, or a copy of it, into start data; the child's own
thread enters a record and starts with fresh statistics; at the entry and at the return
of a syscall the two handlers work on the record of the tracee and on its statistics; and
when a tracee has exited, its thread merges its statistics into the main tables and
removes the record.

The events of different tracees come in any order, between the entry and the return of a
syscall too.  `Iotrace.Trace` is about the traces in which the kernel performs a syscall
earlier than its return is handled.

A tracee that is in a syscall has a record as the call handler has left it
(`Handled.InCalls`), whatever else happens in between, if no number of a tracee is used
again before its record is gone.
-/

import Iotrace.KernelProcesses
import Iotrace.WorldSteps

namespace Iotrace

open Kernel RefCount FiniteMap

/-- The two tables of statistics of a tracer thread, and the two main tables. -/
structure Statistics where
  fileStatTable : FileStatTable
  syscallTable : SyscallTable

/-- `file_stat_create` and `syscall_stat_create`. -/
def Statistics.create : Statistics := ⟨fileStatCreate, syscallStatCreate⟩

/-- `file_state_merge` and `syscall_stat_merge`. -/
def Statistics.merge (main stats : Statistics) : Statistics :=
  ⟨fileStateMerge main.fileStatTable stats.fileStatTable,
    syscallStatMerge main.syscallTable stats.syscallTable⟩

/-- `syscall` of `start_tracer`, which is read at the entry. -/
def Trace.syscall (stop : Stop) : CInt := toCInt (stop.user .ORIG_RAX)

/-- The tracer and the kernel. -/
structure Handled where
  family : Family
  /-- The kernel's descriptor tables. -/
  tables : ℕ → Kernel.Table
  /-- The entry stops of the tracees that are in a syscall. -/
  calls : CInt → Option Stop
  /-- The statistics of the tracer threads. -/
  stats : CInt → Statistics
  /-- `main_file_stat_table` and `main_syscall_table`. -/
  main : Statistics

namespace Handled

/-- The kernel's part of a trace. -/
def kernel (s : Handled) : Processes := ⟨s.family.files, s.family.nextFiles, s.tables, s.calls⟩

/-- What the handlers of a tracee work on, if its record is found. -/
def tracer (s : Handled) (tracee : CInt) : Except Abort Tracer :=
  match threadTmpsLookup s.family.world.process tracee with
  | none => .error .nullDereference
  | some tmps =>
    .ok ⟨s.family.world.process.heap, tmps, (s.stats tracee).fileStatTable,
      (s.stats tracee).syscallTable⟩

/-- What a handler of a tracee leaves behind, next to the kernel `K`. -/
def put (s : Handled) (tracee : CInt) (t : Tracer) (K : Processes) : Handled where
  family := { s.family with
    world := ⟨⟨t.heap, s.family.world.process.threadTmpsTable.insert tracee t.tmps⟩,
      s.family.world.started⟩
    files := K.files
    nextFiles := K.nextFiles }
  tables := K.tables
  calls := K.calls
  stats := Function.update s.stats tracee ⟨t.fileStatTable, t.syscallTable⟩
  main := s.main

/-- One event. -/
def step (s : Handled) : HandledEvent → Except Abort Handled
  | .create kind parent child rdi K' => do
    let family ← s.family.step (.create kind parent child rdi)
    .ok { s with family, tables := (s.kernel.step (.create kind parent child rdi K')).tables }
  | .register child block => do
    let family ← s.family.step (.register child block)
    .ok { s with family, stats := Function.update s.stats child .create }
  | .syscallCall tracee stop => do
    let t ← s.tracer tracee
    let tmps ← handleSyscallCall t.tmps stop (Trace.syscall stop)
    .ok (s.put tracee { t with tmps } (s.kernel.step (.syscallCall tracee stop)))
  | .syscallReturn tracee stop K' =>
    match s.calls tracee with
    | none => .ok s
    | some call => do
      let t ← s.tracer tracee
      let t ← handleSyscallReturn t stop (Trace.syscall call)
      .ok (s.put tracee t (s.kernel.step (.syscallReturn tracee stop K')))
  | .exit tracee => do
    let family ← s.family.step (.exit tracee)
    .ok { s with family, calls := Function.update s.calls tracee none }
  | .tracerEnd tracee => do
    let main := s.main.merge (s.stats tracee)
    let family ← s.family.step (.tracerEnd tracee)
    .ok { s with family, main }

/-- What the kernel does and the ids promise: a live tracee that is in no syscall enters
one, the thread of a child starts once and ends when the child has exited, and no number
is used again before the record of the former tracee is gone. -/
def Regular (s : Handled) : HandledEvent → Prop
  | .create _ _ child _ _ => s.family.world.process.threadTmpsTable.lookup child = none
  | .register child _ => (s.family.world.started.lookup child).isSome ∧
      s.family.world.process.threadTmpsTable.lookup child = none
  | .syscallCall tracee _ => (s.family.files tracee).isSome ∧ s.calls tracee = none
  | .tracerEnd tracee => s.family.files tracee = none ∧
      ∃ tmps, s.family.world.process.threadTmpsTable.lookup tracee = some tmps
  | _ => True

/-- Tracees enter syscalls when they are registered; they create children, call `execve`
and exit when their children are registered, too.  They return from the syscall that they
have entered, and the kernel does what its interface says.  The clock and the paths of
opens can be read. -/
def InScope (s : Handled) : HandledEvent → Prop
  | .create kind parent child rdi K' => s.family.InScope (.create kind parent child rdi) ∧
      K' = s.kernel.table parent
  | .register child block => s.family.InScope (.register child block)
  | .syscallCall tracee stop => (s.family.files tracee).isSome ∧
      s.family.creating tracee = none ∧ s.calls tracee = none ∧
      stop.clock.isSome ∧ Completed.Readable ⟨stop, stop⟩
  | .syscallReturn tracee stop K' => ∃ call, s.calls tracee = some call ∧
      Completed.Permitted ⟨call, stop⟩ (s.kernel.table tracee) ∧
      K' = Completed.leaves ⟨call, stop⟩ (s.kernel.table tracee) ∧
      (sysno (Trace.syscall call) = .SYS_execve → s.family.Proceeds tracee)
  | .exit tracee => s.family.InScope (.exit tracee)
  | .tracerEnd tracee => s.family.InScope (.tracerEnd tracee)

/-- What the tracer sees: it does not see the flags of a child that is not made by `clone`,
an array at the end of the mapped memory, and the flags that three handlers do not look
at. -/
def Seen (s : Handled) : HandledEvent → Prop
  | .create kind parent child rdi _ => Family.FlagsMeant (.create kind parent child rdi)
  | .syscallReturn tracee stop _ => ∀ call, s.calls tracee = some call →
      Completed.ArrayPeeked ⟨call, stop⟩ ∧ Completed.FlagSeen Eq ⟨call, stop⟩
  | _ => True

/-- `main_tracer` before its loop, with the first tracee. -/
def first (tracee : CInt) (world : World) : Handled where
  family := Family.first tracee world
  tables := fun _ => ofFdTable fdTableCreate
  calls := fun _ => none
  stats := fun _ => .create
  main := .create

end Handled

/-- A new child has start data or none, as `wait_for_syscall` has learnt of it. -/
theorem Family.create_ok {s s' : Family} {kind : Creation} {parent child : CInt} {rdi : CLong}
    (h : s.step (.create kind parent child rdi) = .ok s') :
    ∃ world, s' = s.created kind parent child rdi world ∧
      world.process.threadTmpsTable = s.world.process.threadTmpsTable ∧
      ∀ newChild flags, (kind.wait rdi child).threadsAdd 0 = some (newChild, flags) →
        threadsAdd s.world newChild parent flags = .ok world := by
  simp only [step] at h
  cases hadd : (kind.wait rdi child).threadsAdd 0 with
  | none =>
      rw [hadd] at h
      exact ⟨s.world, (Except.ok.inj h).symm, rfl, fun _ _ hsome => by cases hsome⟩
  | some added =>
      rw [hadd] at h
      obtain ⟨world, hworld, hs'⟩ := bind_eq_ok.mp h
      refine ⟨world, (Except.ok.inj hs').symm, threadsAdd_records hworld,
        fun newChild flags hsome => ?_⟩
      obtain rfl := Option.some.inj hsome
      exact hworld

namespace Handled

/-! ### What an event leads to -/

section Events

variable {s s' : Handled} {kind : Creation} {parent child tracee : CInt} {rdi : CLong}
  {block : ThreadTmps} {stop call : Stop} {K' : Kernel.Table} {t : Tracer}

theorem step_create (h : s.step (.create kind parent child rdi K') = .ok s') :
    ∃ world, s' = { s with
        family := s.family.created kind parent child rdi world
        tables := (s.kernel.step (.create kind parent child rdi K')).tables } ∧
      world.process.threadTmpsTable = s.family.world.process.threadTmpsTable ∧
      ∀ newChild flags, (kind.wait rdi child).threadsAdd 0 = some (newChild, flags) →
        threadsAdd s.family.world newChild parent flags = .ok world := by
  obtain ⟨family, hfamily, hs'⟩ := bind_eq_ok.mp h
  obtain rfl := Except.ok.inj hs'
  obtain ⟨world, rfl, hrecs, hadd⟩ := Family.create_ok hfamily
  exact ⟨world, rfl, hrecs, hadd⟩

theorem step_register (h : s.step (.register child block) = .ok s') :
    ∃ world, threadFunc s.family.world child block = .ok world ∧ s' = { s with
      family := { s.family with world, creating := Function.update s.family.creating child none }
      stats := Function.update s.stats child .create } := by
  obtain ⟨family, hfamily, hs'⟩ := bind_eq_ok.mp h
  obtain rfl := Except.ok.inj hs'
  obtain ⟨world, hworld, hs'⟩ := bind_eq_ok.mp hfamily
  obtain rfl := Except.ok.inj hs'
  exact ⟨world, hworld, rfl⟩

/-- The handlers of a tracee work on its record and its statistics. -/
theorem tracer_ok (h : s.tracer tracee = .ok t) :
    ∃ tmps, s.family.world.process.threadTmpsTable.lookup tracee = some tmps ∧
      t = ⟨s.family.world.process.heap, tmps, (s.stats tracee).fileStatTable,
        (s.stats tracee).syscallTable⟩ := by
  unfold tracer threadTmpsLookup at h
  cases hid : s.family.world.process.threadTmpsTable.lookup tracee with
  | none =>
      rw [hid] at h
      cases h
  | some tmps =>
      rw [hid] at h
      exact ⟨tmps, rfl, (Except.ok.inj h).symm⟩

theorem step_syscallCall (h : s.step (.syscallCall tracee stop) = .ok s') :
    ∃ t tmps, s.tracer tracee = .ok t ∧
      handleSyscallCall t.tmps stop (Trace.syscall stop) = .ok tmps ∧
      s' = s.put tracee { t with tmps } (s.kernel.step (.syscallCall tracee stop)) := by
  obtain ⟨t, htracer, hrest⟩ := bind_eq_ok.mp h
  obtain ⟨tmps, hcall, hs'⟩ := bind_eq_ok.mp hrest
  exact ⟨t, tmps, htracer, hcall, (Except.ok.inj hs').symm⟩

theorem step_syscallReturn (hcall : s.calls tracee = some call)
    (h : s.step (.syscallReturn tracee stop K') = .ok s') :
    ∃ t t', s.tracer tracee = .ok t ∧
      handleSyscallReturn t stop (Trace.syscall call) = .ok t' ∧
      s' = s.put tracee t' (s.kernel.complete tracee ⟨call, stop⟩ K') := by
  have hkernel : s.kernel.step (.syscallReturn tracee stop K') =
      s.kernel.complete tracee ⟨call, stop⟩ K' := by
    simp only [Processes.step, show s.kernel.calls tracee = some call from hcall,
      Option.elim_some]
  simp only [step, hcall, hkernel] at h
  obtain ⟨t, htracer, hrest⟩ := bind_eq_ok.mp h
  obtain ⟨t', hreturn, hs'⟩ := bind_eq_ok.mp hrest
  exact ⟨t, t', htracer, hreturn, (Except.ok.inj hs').symm⟩

theorem step_tracerEnd (h : s.step (.tracerEnd tracee) = .ok s') :
    ∃ world, tracerEnd s.family.world tracee = .ok world ∧ s' = { s with
      family := { s.family with world }
      main := s.main.merge (s.stats tracee) } := by
  obtain ⟨family, hfamily, hs'⟩ := bind_eq_ok.mp h
  obtain rfl := Except.ok.inj hs'
  obtain ⟨world, hworld, hs'⟩ := bind_eq_ok.mp hfamily
  obtain rfl := Except.ok.inj hs'
  exact ⟨world, hworld, rfl⟩

end Events

/-- **The kernel does its part,** whatever the tracer does. -/
theorem kernel_step {s s' : Handled} {e : HandledEvent} (h : s.step e = .ok s') :
    s'.kernel = s.kernel.step e := by
  cases e with
  | create kind parent child rdi =>
      obtain ⟨world, rfl, -, -⟩ := step_create h
      rfl
  | register child block =>
      obtain ⟨world, -, rfl⟩ := step_register h
      rfl
  | syscallCall tracee stop =>
      obtain ⟨t, tmps, -, -, rfl⟩ := step_syscallCall h
      rfl
  | syscallReturn tracee stop K' =>
      cases hcall : s.calls tracee with
      | none =>
          simp only [step, hcall] at h
          obtain rfl := Except.ok.inj h
          simp only [Processes.step, kernel, hcall, Option.elim_none]
      | some call =>
          obtain ⟨t, t', -, -, rfl⟩ := step_syscallReturn hcall h
          simp only [Processes.step, show s.kernel.calls tracee = some call from hcall,
            Option.elim_some]
          rfl
  | exit tracee =>
      obtain rfl := Except.ok.inj h
      rfl
  | tracerEnd tracee =>
      obtain ⟨world, -, rfl⟩ := step_tracerEnd h
      rfl

/-! ### The record of a tracee that is in a syscall -/

/-- A tracee that is in a syscall is live, and has a record as the call handler has left
it. -/
def InCalls (s : Handled) : Prop :=
  ∀ p stop, s.calls p = some stop → (s.family.files p).isSome ∧
    ∃ tmps₀ tmps, s.family.world.process.threadTmpsTable.lookup p = some tmps ∧
      handleSyscallCall tmps₀ stop (Trace.syscall stop) = .ok tmps

variable {s s' : Handled} {tracee : CInt}

/-- The tracee is alive after a syscall of another one. -/
theorem complete_files (K : Processes) {p : CInt} (hp : p ≠ tracee) (c : Completed)
    (K' : Kernel.Table) : (K.complete tracee c K').files p = K.files p ∧
      (K.complete tracee c K').calls p = K.calls p := by
  rw [Processes.complete]
  split_ifs
  · exact ⟨Function.update_of_ne hp _ _, Function.update_of_ne hp _ _⟩
  · exact ⟨rfl, Function.update_of_ne hp _ _⟩

theorem complete_calls (K : Processes) (c : Completed) (K' : Kernel.Table) :
    (K.complete tracee c K').calls tracee = none := by
  rw [Processes.complete]
  split_ifs
  · exact Function.update_self _ _ _
  · exact Function.update_self _ _ _

/-- **A handler of another tracee** does not get at the record. -/
theorem InCalls.put (h : s.InCalls) {t : Tracer} {K : Processes}
    (hothers : ∀ p, p ≠ tracee → K.files p = s.family.files p ∧ K.calls p = s.calls p)
    (hself : ∀ stop, K.calls tracee = some stop → (K.files tracee).isSome ∧
      ∃ tmps₀, handleSyscallCall tmps₀ stop (Trace.syscall stop) = .ok t.tmps) :
    (s.put tracee t K).InCalls := by
  intro p stop hp
  by_cases hne : p = tracee
  · subst hne
    obtain ⟨hlive, tmps₀, hcall⟩ := hself stop hp
    exact ⟨hlive, tmps₀, t.tmps, Finmap.lookup_insert _, hcall⟩
  · obtain ⟨hfiles, hcalls⟩ := hothers p hne
    obtain ⟨hlive, tmps₀, tmps, hid, hcall⟩ := h p stop (hcalls.symm.trans hp)
    refine ⟨?_, tmps₀, tmps, (Finmap.lookup_insert_of_ne _ hne).trans hid, hcall⟩
    rw [show (s.put tracee t K).family.files p = K.files p from rfl, hfiles]
    exact hlive

/-- **One event** leaves the records of the tracees that are in a syscall. -/
theorem InCalls.step (h : s.InCalls) {e : HandledEvent} (hregular : s.Regular e)
    (hstep : s.step e = .ok s') : s'.InCalls := by
  cases e with
  | create kind parent child rdi =>
      obtain ⟨world, rfl, hrecs, -⟩ := step_create hstep
      intro p stop hp
      obtain ⟨hlive, tmps₀, tmps, hid, hcall⟩ := h p stop hp
      have hne : p ≠ child := by
        rintro rfl
        cases hid.symm.trans hregular
      refine ⟨?_, tmps₀, tmps, (congrArg (Finmap.lookup p) hrecs).trans hid, hcall⟩
      show (Function.update s.family.files child _ p).isSome
      rw [Function.update_of_ne hne]
      exact hlive
  | register child block =>
      obtain ⟨hstarted, hnone⟩ := hregular
      obtain ⟨data, hdata⟩ := Option.isSome_iff_exists.mp hstarted
      obtain ⟨world, hfunc, rfl⟩ := step_register hstep
      obtain ⟨tmps', hrecs⟩ := threadFunc_records hdata hfunc
      intro p stop hp
      obtain ⟨hlive, tmps₀, tmps, hid, hcall⟩ := h p stop hp
      refine ⟨hlive, tmps₀, tmps, ?_, hcall⟩
      show world.process.threadTmpsTable.lookup p = some tmps
      rw [hrecs, lookup_insert_of_some hnone hid]
  | syscallCall tracee stop =>
      obtain ⟨t, tmps, -, hcall, rfl⟩ := step_syscallCall hstep
      refine h.put (fun p hp => ⟨rfl, Function.update_of_ne hp _ _⟩) fun stop' hstop' => ?_
      have hself : Function.update s.calls tracee (some stop) tracee = some stop' := hstop'
      rw [Function.update_self] at hself
      obtain rfl := Option.some.inj hself
      exact ⟨hregular.1, t.tmps, hcall⟩
  | syscallReturn tracee stop K' =>
      cases hcall : s.calls tracee with
      | none =>
          simp only [Handled.step, hcall] at hstep
          obtain rfl := Except.ok.inj hstep
          exact h
      | some call =>
          obtain ⟨t, t', -, -, rfl⟩ := step_syscallReturn hcall hstep
          refine h.put (fun p hp => complete_files s.kernel hp _ _) fun stop' hstop' => ?_
          rw [complete_calls] at hstop'
          cases hstop'
  | exit tracee =>
      obtain rfl := Except.ok.inj hstep
      intro p stop hp
      have hp : Function.update s.calls tracee none p = some stop := hp
      rw [Function.update_apply] at hp
      split_ifs at hp with hne
      obtain ⟨hlive, hrecord⟩ := h p stop hp
      refine ⟨?_, hrecord⟩
      show (Function.update s.family.files tracee none p).isSome
      rw [Function.update_of_ne hne]
      exact hlive
  | tracerEnd tracee =>
      obtain ⟨hdead, tmps', hid'⟩ := hregular
      obtain ⟨world, hend, rfl⟩ := step_tracerEnd hstep
      intro p stop hp
      obtain ⟨hlive, tmps₀, tmps, hid, hcall⟩ := h p stop hp
      have hne : p ≠ tracee := by
        rintro rfl
        rw [hdead] at hlive
        cases hlive
      refine ⟨hlive, tmps₀, tmps, ?_, hcall⟩
      show world.process.threadTmpsTable.lookup p = some tmps
      rw [tracerEnd_records hid' hend, Finmap.lookup_erase_ne hne]
      exact hid

end Handled

end Iotrace
