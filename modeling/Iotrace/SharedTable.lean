/-
# One table, several tracees

Tracees that share a descriptor table, each followed by its own tracer thread.
The kernel performs a call at one moment; the thread of the tracee runs the return
handler at some later moment, in any order with the handlers of the others
(`Move`).  `handle_close_return` looks the name up in one critical section and
removes the entry in another, so it takes two moves.

The handlers run under the mutex, which keeps each of them whole but does not put
them into the order of the calls.  A `close` that is handled after the kernel has
given the number to a new `open`, and after the handler of that `open`, removes
the new entry.  `shared_table_in_step` says that the tables stay in step as long
as two calls that touch one number are handled in the order in which the kernel
performed them; calls that do not touch a common number may be handled in any
order, which is where `Runs.foldlM_overtake` comes in.
-/

import Iotrace.Refinement
import Iotrace.Library.Reordering

namespace Iotrace

open Kernel Runs FiniteMap

/-! ### The system -/

/-- Where the tracer thread of a tracee stands. -/
inductive Phase where
  /-- The tracee runs, outside of syscalls. -/
  | idle
  /-- The call handler has run; the kernel has yet to perform the call. -/
  | entered (c : Completed)
  /-- The kernel has performed the call; the return handler has yet to run. -/
  | returned (c : Completed)
  /-- The second critical section of the return handler of a `close` has yet to run. -/
  | counted (c : Completed)

/-- The call that the tracee is in. -/
def Phase.call : Phase → Option Completed
  | .idle => none
  | .entered c | .returned c | .counted c => some c

/-- The call that the kernel has performed and whose handler has not finished. -/
def Phase.performed : Phase → Option Completed
  | .idle | .entered _ => none
  | .returned c | .counted c => some c

/-- A tracer thread: what it has for itself. -/
structure Worker where
  tmps : ThreadTmps
  fileStatTable : FileStatTable
  syscallTable : SyscallTable
  phase : Phase

/-- The tracees `ι`, their tracer threads and the kernel.  `pending` lists the calls
whose handlers have not finished, in the order in which the kernel performed them. -/
structure System (ι : Type) where
  heap : Heap
  worker : ι → Worker
  kernel : Kernel.Table
  pending : List (ι × Completed)

/-- What can happen: a tracee enters a call, which its thread sees; the kernel
performs the call; the thread goes on with its return handler. -/
inductive Move (ι : Type) where
  | call (i : ι) (c : Completed)
  | kernel (i : ι)
  | handle (i : ι)

namespace System

variable {ι : Type} [DecidableEq ι]

/-- What the handlers of one thread work on. -/
def tracer (s : System ι) (i : ι) : Tracer :=
  ⟨s.heap, (s.worker i).tmps, (s.worker i).fileStatTable, (s.worker i).syscallTable⟩

/-- The system after a handler of one thread. -/
def put (s : System ι) (i : ι) (tracer : Tracer) (phase : Phase) : System ι :=
  { s with
    heap := tracer.heap
    worker := Function.update s.worker i
      ⟨tracer.tmps, tracer.fileStatTable, tracer.syscallTable, phase⟩ }

/-- The handler of a thread has finished. -/
def settle (s : System ι) (i : ι) : System ι :=
  { s with pending := s.pending.filter fun e => e.1 ≠ i }

/-- One move.  A move that the phase of the thread does not allow changes nothing. -/
def step (s : System ι) : Move ι → Except Abort (System ι)
  | .call i c =>
    match (s.worker i).phase with
    | .idle => do
      let tmps ← handleSyscallCall (s.worker i).tmps c.call c.sc
      .ok (s.put i { s.tracer i with tmps } (.entered c))
    | _ => .ok s
  | .kernel i =>
    match (s.worker i).phase with
    | .entered c =>
      .ok { s.put i (s.tracer i) (.returned c) with
        kernel := c.kernelEffect.apply s.kernel
        pending := s.pending ++ [(i, c)] }
    | _ => .ok s
  | .handle i =>
    match (s.worker i).phase with
    | .returned c =>
      if sysno c.sc = .SYS_close then do
        let tracer ← handleCloseReturnCount (s.tracer i) c.ret c.sc
        .ok (s.put i tracer (.counted c))
      else do
        let tracer ← handleSyscallReturn (s.tracer i) c.ret c.sc
        .ok ((s.put i tracer .idle).settle i)
    | .counted _ => do
      let tracer ← handleCloseReturnRemove (s.tracer i)
      .ok ((s.put i tracer .idle).settle i)
    | _ => .ok s

end System

/-! ### Calls that touch a common number -/

/-- The calls of the tracees that share a table. -/
def Completed.OpensClosesDups (c : Completed) : Prop :=
  sysno c.sc ∈ [Sysno.SYS_open, .SYS_openat, .SYS_close, .SYS_dup, .SYS_dup2]

/-- The effect of such a call as an action on one entry, `none` where there is none. -/
def Completed.cellOp (c : Completed) : Option (CellOp CInt FdTableEntry Abort) :=
  match sysno c.sc with
  | .SYS_open =>
    if 0 ≤ c.rax.toInt then
      some ⟨none, toCInt c.rax, fun _ =>
        .ok (some ⟨c.path .RDI, hasBit (c.arg .RSI) O_CLOEXEC⟩)⟩
    else none
  | .SYS_openat =>
    if 0 ≤ c.rax.toInt then
      some ⟨none, toCInt c.rax, fun _ =>
        .ok (some ⟨c.path .RSI, hasBit (c.arg .RDX) O_CLOEXEC⟩)⟩
    else none
  | .SYS_close => some ⟨none, c.arg .RDI, fun _ => .ok none⟩
  | .SYS_dup | .SYS_dup2 =>
    if 0 ≤ (c.arg .RDI).toInt ∧ c.arg .RDI ≠ toCInt c.rax then
      some ⟨some (c.arg .RDI), toCInt c.rax, fun
        | none => .error .nullDereference
        | some entry => .ok (some ⟨entry.filename, false⟩)⟩
    else none
  | _ => none

/-- Two calls conflict if they enter or remove the same number, or if one duplicates
the number that the other enters or removes; two `close` do not conflict. -/
def Completed.Conflicts (c d : Completed) : Prop :=
  ¬(sysno c.sc = .SYS_close ∧ sysno d.sc = .SYS_close) ∧
    ∃ a b, c.cellOp = some a ∧ d.cellOp = some b ∧ a.Conflicts b

/-- The effects of the calls as a step function on the contents of the table. -/
def effectStep (t : FdTable) (c : Completed) : Except Abort FdTable := c.tableEffect t

theorem Completed.tableEffect_eq_cellOp {c : Completed} (h : c.OpensClosesDups) (t : FdTable) :
    c.tableEffect t = match c.cellOp with
      | none => .ok t
      | some a => a.run t := by
  unfold OpensClosesDups at h
  unfold tableEffect cellOp
  cases hsc : sysno c.sc <;> simp only [hsc] at h ⊢
  case SYS_open | SYS_openat =>
    unfold enterFd
    split_ifs <;> rfl
  case SYS_close => rfl
  case SYS_dup | SYS_dup2 =>
    split_ifs
    · simp only [CellOp.run, CellOp.read, fdTableInsertDup, Option.bind_some, Bool.false_eq_true,
        if_false]
      cases t.lookup (c.arg .RDI) <;> rfl
    · rfl
  all_goals exact absurd h (by decide)

/-- Two `close` can be handled in either order. -/
theorem Completed.overtakes_of_closes {c d : Completed} (hc : sysno c.sc = .SYS_close)
    (hd : sysno d.sc = .SYS_close) : Overtakes effectStep c d := by
  intro s t r hrund hrunc
  simp only [effectStep, tableEffect, hc, hd] at hrund hrunc ⊢
  obtain rfl := Except.ok.inj hrund
  obtain rfl := Except.ok.inj hrunc
  exact ⟨_, rfl, congrArg Except.ok Finmap.erase_erase⟩

/-- **Calls without a conflict can be handled in either order.** -/
theorem Completed.overtakes {c d : Completed} (hc : c.OpensClosesDups) (hd : d.OpensClosesDups)
    (h : ¬c.Conflicts d) : Overtakes effectStep c d := by
  by_cases hcloses : sysno c.sc = .SYS_close ∧ sysno d.sc = .SYS_close
  · exact overtakes_of_closes hcloses.1 hcloses.2
  have hcell : ∀ a b, c.cellOp = some a → d.cellOp = some b → ¬a.Conflicts b :=
    fun a b ha hb hconf => h ⟨hcloses, a, b, ha, hb, hconf⟩
  intro s t r hrund hrunc
  unfold effectStep at hrund hrunc ⊢
  rw [tableEffect_eq_cellOp hd] at hrund
  rw [tableEffect_eq_cellOp hc] at hrunc
  simp only [tableEffect_eq_cellOp hc, tableEffect_eq_cellOp hd]
  cases hopd : d.cellOp with
  | none =>
      rw [hopd] at hrund
      obtain rfl := Except.ok.inj hrund
      exact ⟨r, hrunc, rfl⟩
  | some b =>
      rw [hopd] at hrund
      cases hopc : c.cellOp with
      | none =>
          rw [hopc] at hrunc
          obtain rfl := Except.ok.inj hrunc
          exact ⟨s, rfl, hrund⟩
      | some a =>
          rw [hopc] at hrunc
          exact CellOp.overtakes (hcell a b hopc hopd) s t r hrund hrunc

/-- These calls store no pairs, and their flags do not matter here. -/
theorem Completed.OpensClosesDups.names {c : Completed} (h : c.OpensClosesDups) :
    c.ArrayPeeked ∧ c.FlagSeen fun _ _ => True := by
  unfold Completed.OpensClosesDups at h
  unfold Completed.ArrayPeeked Completed.FlagSeen
  cases hsc : sysno c.sc <;> simp [hsc] at h ⊢

/-! ### The invariant -/

/-- The call whose change of the table the next move of the handler makes. -/
def Phase.changing : Phase → Option Completed
  | .returned c => if sysno c.sc = .SYS_close then none else some c
  | .counted c => some c
  | .idle | .entered _ => none

namespace System

variable {ι : Type}

/-- The moves of tracees that open, close and duplicate descriptors, with what the
kernel promises about its results. -/
def InScope (s : System ι) : Move ι → Prop
  | .call i c => (s.worker i).phase = .idle ∧ c.OpensClosesDups ∧ c.Timed ∧ c.Readable
  | .kernel i => ∃ c, (s.worker i).phase = .entered c ∧ c.InScope s.kernel
  | .handle _ => True

/-- No handler changes the table ahead of an earlier call that its own one
conflicts with. -/
def InOrder (s : System ι) : Move ι → Prop
  | .handle i => ∀ c, (s.worker i).phase.changing = some c →
      ∀ l₁ l₂, s.pending = l₁ ++ (i, c) :: l₂ → ∀ e ∈ l₁, ¬c.Conflicts e.2
  | _ => True

/-- Every thread has an entry for exactly the open descriptors, with the name of
the open that owns the number. -/
def InStep (s : System ι) : Prop :=
  ∀ i, ∃ t, (s.tracer i).Holds t ∧ Agrees FdTableEntry.filename Descriptor.file t s.kernel

/-- All threads refer to the table at `a` and to the mutex at `m`; the table
agrees with the kernel's, and no tracee is in a call. -/
structure Starts (s : System ι) (a m : ℕ) (t : FdTable) : Prop where
  refs : ∀ i, (s.worker i).tmps.fdTable = a ∧ (s.worker i).tmps.fdMutex = m
  table : s.heap.tables.cell a = some t
  mutex : s.heap.mutexes.cell m = some ()
  fits : t.Fits
  agrees : Agrees FdTableEntry.filename Descriptor.file t s.kernel
  idle : ∀ i, (s.worker i).phase = .idle
  pending : s.pending = []

/-- **The invariant.**  The calls that are pending are those that threads still
have to handle, and their effects, in the order of the kernel, would bring the
table in step. -/
structure Sound (a m : ℕ) (s : System ι) : Prop where
  refs : ∀ i, (s.worker i).tmps.fdTable = a ∧ (s.worker i).tmps.fdMutex = m
  mutex : s.heap.mutexes.cell m = some ()
  scratch : ∀ i c, (s.worker i).phase.call = some c →
    c.Scratch (s.worker i).tmps ∧ c.Timed ∧ c.OpensClosesDups
  closes : ∀ i c, (s.worker i).phase = .counted c → sysno c.sc = .SYS_close
  pending : ∀ i c, (i, c) ∈ s.pending ↔ (s.worker i).phase.performed = some c
  nodup : (s.pending.map Prod.fst).Nodup
  contents : ∃ t t', s.heap.tables.cell a = some t ∧
    (s.pending.map Prod.snd).foldlM effectStep t = .ok t' ∧ t'.Fits ∧
      Agrees FdTableEntry.filename Descriptor.file t' s.kernel

variable {s : System ι} {a m : ℕ} {i : ι}

theorem Starts.sound {t : FdTable} (h : s.Starts a m t) : s.Sound a m where
  refs := h.refs
  mutex := h.mutex
  scratch i c hc := by
    rw [h.idle i] at hc
    cases hc
  closes i c hc := by
    rw [h.idle i] at hc
    cases hc
  pending i c := by
    rw [h.idle i, h.pending]
    exact ⟨fun hc => (List.not_mem_nil hc).elim, fun hc => nomatch hc⟩
  nodup := by
    rw [h.pending]
    exact List.nodup_nil
  contents := ⟨t, t, h.table, by rw [h.pending]; rfl, h.fits, h.agrees⟩

/-- **With nothing pending, the tables are in step.** -/
theorem Sound.inStep (h : s.Sound a m) (hpending : s.pending = []) : s.InStep := by
  obtain ⟨t, t', htable, hrun, -, hagree⟩ := h.contents
  rw [hpending] at hrun
  obtain rfl : t = t' := Except.ok.inj hrun
  intro i
  obtain ⟨ha, hm⟩ := h.refs i
  exact ⟨t, ⟨(congrArg _ ha).trans htable, (congrArg _ hm).trans h.mutex⟩, hagree⟩

theorem Sound.holds (h : s.Sound a m) {t : FdTable} (ht : s.heap.tables.cell a = some t) (i : ι) :
    (s.tracer i).Holds t :=
  ⟨(congrArg _ (h.refs i).1).trans ht, (congrArg _ (h.refs i).2).trans h.mutex⟩

variable [DecidableEq ι]

/-- What a move of one thread leaves of the invariant: the other threads are as
they were, so that it is enough to look at that thread, at the calls that are
pending and at the table. -/
theorem Sound.move {s' : System ι} (h : s.Sound a m) {w : Worker}
    (hworker : s'.worker = Function.update s.worker i w)
    (hmutexes : s'.heap.mutexes = s.heap.mutexes)
    (hrefs : (s.worker i).tmps.SameRefs w.tmps)
    (hscratch : ∀ c, w.phase.call = some c → c.Scratch w.tmps ∧ c.Timed ∧ c.OpensClosesDups)
    (hcloses : ∀ c, w.phase = .counted c → sysno c.sc = .SYS_close)
    (hpending : ∀ j c, (j, c) ∈ s'.pending ↔
      if j = i then w.phase.performed = some c else (j, c) ∈ s.pending)
    (hnodup : (s'.pending.map Prod.fst).Nodup)
    (hcontents : ∃ t t', s'.heap.tables.cell a = some t ∧
      (s'.pending.map Prod.snd).foldlM effectStep t = .ok t' ∧ t'.Fits ∧
        Agrees FdTableEntry.filename Descriptor.file t' s'.kernel) : s'.Sound a m where
  refs j := by
    rw [hworker, Function.update_apply]
    split_ifs
    · exact ⟨hrefs.fdTable.trans (h.refs i).1, hrefs.fdMutex.trans (h.refs i).2⟩
    · exact h.refs j
  mutex := by
    rw [hmutexes]
    exact h.mutex
  scratch j c := by
    rw [hworker, Function.update_apply]
    split_ifs
    · exact hscratch c
    · exact h.scratch j c
  closes j c := by
    rw [hworker, Function.update_apply]
    split_ifs
    · exact hcloses c
    · exact h.closes j c
  pending j c := by
    rw [hpending, hworker, Function.update_apply]
    split_ifs
    · rfl
    · exact h.pending j c
  nodup := hnodup
  contents := hcontents

/-! ### One move -/

/-- A move that changes neither the table nor what is pending. -/
theorem Sound.put (h : s.Sound a m) {tracer : Tracer} {phase : Phase}
    (hheap : tracer.heap = s.heap) (hrefs : (s.worker i).tmps.SameRefs tracer.tmps)
    (hscratch : ∀ c, phase.call = some c → c.Scratch tracer.tmps ∧ c.Timed ∧ c.OpensClosesDups)
    (hcloses : ∀ c, phase = .counted c → sysno c.sc = .SYS_close)
    (hperformed : phase.performed = (s.worker i).phase.performed) :
    (s.put i tracer phase).Sound a m := by
  refine h.move rfl (congrArg Heap.mutexes hheap) hrefs hscratch hcloses (fun j c => ?_) h.nodup ?_
  · split_ifs with hj
    · rw [hj, hperformed]
      exact h.pending i c
    · rfl
  · obtain ⟨t, t', htable, hrest⟩ := h.contents
    exact ⟨t, t', (congrArg (fun heap => heap.tables.cell a) hheap).trans htable, hrest⟩

/-- The entry of a call. -/
theorem Sound.call (h : s.Sound a m) {c : Completed} (hidle : (s.worker i).phase = .idle)
    (hc : c.OpensClosesDups) (htimed : c.Timed) (hreadable : c.Readable) :
    ∃ s', s.step (.call i c) = .ok s' ∧ s'.Sound a m := by
  obtain ⟨start, hstart⟩ := Option.isSome_iff_exists.mp htimed.call
  obtain ⟨tmps, hcall, hrefs, hscr, -⟩ :=
    handleSyscallCall_scratch hstart hreadable (s.worker i).tmps
  refine ⟨s.put i { s.tracer i with tmps } (.entered c), ?_, h.put rfl hrefs ?_ ?_ ?_⟩
  · rw [step, hidle]
    simp only [hcall, ok_bind]
  · intro d hd
    obtain rfl := Option.some.inj hd
    exact ⟨hscr, htimed, hc⟩
  · intro d hd
    cases hd
  · rw [hidle]
    rfl

/-- The kernel performs a call. -/
theorem Sound.kernel (h : s.Sound a m) {c : Completed} (hentered : (s.worker i).phase = .entered c)
    (hscope : c.InScope s.kernel) : ∃ s', s.step (.kernel i) = .ok s' ∧ s'.Sound a m := by
  obtain ⟨hscr, htimed, hc⟩ := h.scratch i c (by rw [hentered]; rfl)
  have hnone : ∀ d, (i, d) ∉ s.pending := fun d hd => by
    rw [h.pending, hentered] at hd
    cases hd
  obtain ⟨t, t', htable, hrun, hfits, hagree⟩ := h.contents
  obtain ⟨hpeek, hseen⟩ := hc.names
  obtain ⟨u, hu, hagree'⟩ :=
    Completed.tableEffect_agrees View.names hagree hfits hscope hpeek hseen
  refine ⟨{ s.put i (s.tracer i) (.returned c) with
      kernel := c.kernelEffect.apply s.kernel
      pending := s.pending ++ [(i, c)] }, by simp only [step, hentered],
    h.move (i := i) rfl rfl ⟨rfl, rfl, rfl⟩ ?_ ?_ ?_ ?_ ?_⟩
  · intro d hd
    obtain rfl := Option.some.inj hd
    exact ⟨hscr, htimed, hc⟩
  · intro d hd
    cases hd
  · intro j d
    simp only [List.mem_append, List.mem_singleton, Prod.mk.injEq]
    split_ifs with hj
    · subst hj
      constructor
      · rintro (hmem | ⟨-, rfl⟩)
        · exact (hnone d hmem).elim
        · rfl
      · intro hd
        exact Or.inr ⟨rfl, (Option.some.inj hd).symm⟩
    · exact ⟨fun hmem => hmem.resolve_right fun he => hj he.1, Or.inl⟩
  · simp only [List.map_append, List.map_cons, List.map_nil]
    refine List.nodup_append.mpr ⟨h.nodup, List.nodup_singleton i, ?_⟩
    rintro j hj k hk rfl
    obtain rfl := List.mem_singleton.mp hk
    obtain ⟨⟨k, d⟩, hmem, rfl⟩ := List.mem_map.mp hj
    exact hnone d hmem
  · refine ⟨t, u, htable, ?_, Completed.tableEffect_fits hfits hu, hagree'⟩
    simp only [List.map_append, List.map_cons, List.map_nil]
    exact foldlM_append_ok.mpr ⟨t', hrun, foldlM_cons_ok.mpr ⟨u, hu, rfl⟩⟩

/-- **A handler that changes the table in order** takes its call off the ones that
are pending. -/
theorem Sound.settle (h : s.Sound a m) {c : Completed}
    (hperformed : (s.worker i).phase.performed = some c)
    (horder : ∀ l₁ l₂, s.pending = l₁ ++ (i, c) :: l₂ → ∀ e ∈ l₁, ¬c.Conflicts e.2) :
    ∃ t u, s.heap.tables.cell a = some t ∧ c.tableEffect t = .ok u ∧
      ∀ fileStat syscalls, ((s.put i ⟨s.heap.setTable a u, (s.worker i).tmps, fileStat, syscalls⟩
        .idle).settle i).Sound a m := by
  obtain ⟨t, t', htable, hrun, hfits, hagree⟩ := h.contents
  have hmem : (i, c) ∈ s.pending := (h.pending i c).mpr hperformed
  obtain ⟨l₁, l₂, hsplit⟩ := List.append_of_mem hmem
  have hops : ∀ e ∈ s.pending, e.2.OpensClosesDups := fun ⟨j, d⟩ he => by
    refine (h.scratch j d ?_).2.2
    have hperf := (h.pending j d).mp he
    cases hphase : (s.worker j).phase with
    | idle | entered e => rw [hphase] at hperf; cases hperf
    | returned e | counted e => rw [hphase] at hperf; exact hperf
  have hrun' : (l₁.map Prod.snd ++ c :: l₂.map Prod.snd).foldlM effectStep t = .ok t' := by
    rw [hsplit, List.map_append, List.map_cons] at hrun
    exact hrun
  obtain ⟨u, hu, hrest⟩ := foldlM_overtake (fun d hd => by
    obtain ⟨e, he, rfl⟩ := List.mem_map.mp hd
    refine Completed.overtakes (hops _ hmem) (hops e ?_) (horder l₁ l₂ hsplit e he)
    rw [hsplit]
    exact List.mem_append_left _ he) hrun'
  have hnodup := h.nodup
  rw [hsplit, List.map_append, List.map_cons, List.nodup_middle] at hnodup
  obtain ⟨hfresh, hnodup⟩ := List.nodup_cons.mp hnodup
  have hother : ∀ e ∈ l₁ ++ l₂, e.1 ≠ i := fun e he heq => by
    refine hfresh ?_
    rw [← List.map_append, ← heq]
    exact List.mem_map.mpr ⟨e, he, rfl⟩
  have hfilter : (s.pending.filter fun e => e.1 ≠ i) = l₁ ++ l₂ := by
    rw [hsplit, List.filter_append, List.filter_cons_of_neg (by simp), ← List.filter_append,
      List.filter_eq_self]
    intro e he
    simpa using hother e he
  refine ⟨t, u, htable, hu, fun fileStat syscalls => ?_⟩
  refine h.move (i := i) rfl rfl ⟨rfl, rfl, rfl⟩ (fun d hd => nomatch hd) (fun d hd => nomatch hd)
    (fun j d => ?_) ?_ ?_
  · simp only [System.settle, System.put, List.mem_filter]
    split_ifs with hj
    · simp [hj, Phase.performed]
    · simp [hj]
  · change ((s.pending.filter fun e => e.1 ≠ i).map Prod.fst).Nodup
    rw [hfilter, List.map_append]
    exact hnodup
  · refine ⟨u, t', Arena.write_cell_self htable, ?_, hfits, hagree⟩
    change ((s.pending.filter fun e => e.1 ≠ i).map Prod.snd).foldlM effectStep u = .ok t'
    rw [hfilter, List.map_append]
    exact hrest

/-- The thread goes on with its return handler. -/
theorem Sound.handle (h : s.Sound a m) (horder : s.InOrder (.handle i)) :
    ∃ s', s.step (.handle i) = .ok s' ∧ s'.Sound a m := by
  simp only [InOrder] at horder
  cases hphase : (s.worker i).phase with
  | idle | entered c => exact ⟨s, by simp only [step, hphase], h⟩
  | returned c =>
      rw [hphase] at horder
      obtain ⟨hscr, htimed, hc⟩ := h.scratch i c (by rw [hphase]; rfl)
      obtain ⟨now, hnow⟩ := Option.isSome_iff_exists.mp htimed.ret
      by_cases hclose : sysno c.sc = .SYS_close
      · obtain ⟨t, t', htable, -⟩ := h.contents
        obtain ⟨fileStatTable, hcount⟩ : ∃ fileStatTable,
            handleCloseReturnCount (s.tracer i) c.ret c.sc =
              .ok { s.tracer i with fileStatTable } :=
          ⟨_, handleCloseReturnCount_of_holds (h.holds htable i) hnow c.sc⟩
        refine ⟨s.put i { s.tracer i with fileStatTable } (.counted c),
          by simp only [step, hphase, hclose, if_true, hcount, ok_bind],
          h.put rfl ⟨rfl, rfl, rfl⟩ ?_ ?_ ?_⟩
        · intro d hd
          obtain rfl := Option.some.inj hd
          exact ⟨hscr, htimed, hc⟩
        · intro d hd
          obtain rfl := Phase.counted.inj hd
          exact hclose
        · rw [hphase]
          rfl
      · have hchanging : (Phase.returned c).changing = some c := if_neg hclose
        obtain ⟨t, u, htable, hu, hsound⟩ :=
          h.settle (by rw [hphase]; rfl) (horder c hchanging)
        have hexec : sysno c.sc ≠ .SYS_execve := fun he => by
          rw [Completed.OpensClosesDups, he] at hc
          exact absurd hc (by decide)
        obtain ⟨fileStat, syscalls, hret⟩ :=
          handleSyscallReturn_eq (h.holds htable i) hscr hnow hexec
        have htable_ref : (s.tracer i).tmps.fdTable = a := (h.refs i).1
        refine ⟨_, ?_, hsound fileStat syscalls⟩
        simp only [step, hphase, hclose, if_false, hret, hu, Except.map, ok_bind, htable_ref]
        rfl
  | counted c =>
      rw [hphase] at horder
      obtain ⟨hscr, htimed, hc⟩ := h.scratch i c (by rw [hphase]; rfl)
      have hclose := h.closes i c hphase
      obtain ⟨t, u, htable, hu, hsound⟩ := h.settle (by rw [hphase]; rfl) (horder c rfl)
      rw [Completed.Scratch, hclose] at hscr
      simp only [Completed.tableEffect, hclose] at hu
      obtain rfl := Except.ok.inj hu
      have hremove := handleCloseReturnRemove_of_holds (h.holds htable i)
      have hfd : (s.tracer i).tmps.intA = c.arg .RDI := hscr
      have htable_ref : (s.tracer i).tmps.fdTable = a := (h.refs i).1
      refine ⟨_, ?_, hsound (s.worker i).fileStatTable (s.worker i).syscallTable⟩
      simp only [step, hphase, hremove, ok_bind, hfd, htable_ref]
      rfl

/-- **One move keeps the invariant.** -/
theorem Sound.step (h : s.Sound a m) (move : Move ι) (hscope : s.InScope move)
    (horder : s.InOrder move) : ∃ s', s.step move = .ok s' ∧ s'.Sound a m := by
  cases move with
  | call i c => exact h.call hscope.1 hscope.2.1 hscope.2.2.1 hscope.2.2.2
  | kernel i =>
      obtain ⟨c, hentered, hin⟩ := hscope
      exact h.kernel hentered hin
  | handle i => exact h.handle horder

end System

/-- **The shared table stays in step with the kernel if conflicting calls are
handled in order.**  Over every run of any number of tracees that share one table,
in every interleaving of kernel and handlers in which no handler changes the table
ahead of an earlier call that its own one conflicts with, no handler aborts, and
in every state with no return left to handle each thread's table has an entry for
exactly the open descriptors, with the names of the opens that own them. -/
theorem shared_table_in_step {ι : Type} [DecidableEq ι] {s : System ι} {a m : ℕ} {t : FdTable}
    (hs : s.Starts a m t) {l : List (Move ι)} (hscope : Along System.step System.InScope s l)
    (horder : Along System.step System.InOrder s l) :
    (∃ s', l.foldlM System.step s = .ok s') ∧
      Always System.step (fun s => s.pending = [] → s.InStep) s l := by
  have hboth := hscope.and horder
  have hkeep : ∀ (s : System ι) move s', s.Sound a m → s.InScope move ∧ s.InOrder move →
      s.step move = .ok s' → s'.Sound a m := by
    intro s move s' hsound hin hstep
    obtain ⟨s'', hstep', hsound'⟩ := hsound.step move hin.1 hin.2
    obtain rfl := Except.ok.inj (hstep.symm.trans hstep')
    exact hsound'
  have hok := Along.along (Q := fun s move => ∃ s', s.step move = .ok s') hkeep
    (fun s move hsound hin => (hsound.step move hin.1 hin.2).imp fun _ h => h.1) hboth hs.sound
  exact ⟨hok.run_ok fun _ _ h => h, (hboth.always hkeep hs.sound).mono fun s h => h.inStep⟩

/-- Two tracees that share a table with the contents `t`, outside of syscalls. -/
def twoTracees (t : FdTable) : System Bool where
  heap := ⟨Arena.empty.alloc t, Arena.empty.alloc 2, Arena.empty.alloc ()⟩
  worker _ := ⟨(Tracer.ofTable t).tmps, ∅, ∅, .idle⟩
  kernel := ofFdTable t
  pending := []

theorem twoTracees_starts {t : FdTable} (ht : t.Fits) : (twoTracees t).Starts 0 0 t where
  refs _ := ⟨rfl, rfl⟩
  table := rfl
  mutex := rfl
  fits := ht
  agrees fd := by
    change _ = (ofFdTable t fd).map _
    rw [ofFdTable, Option.map_map]
    rfl
  idle _ := rfl
  pending := rfl

/-- One tracee closes descriptor 2, the other then duplicates the standard output to
`fd`; the handler of the other comes first. -/
def closeThenDup (fd : CLong) : List (Move Bool) :=
  [.call false (.ofRegs 3 2 0 0 0 0 fun _ => none), .kernel false,
    .call true (.ofRegs 32 1 0 0 0 fd fun _ => none), .kernel true,
    .handle true, .handle false, .handle false]

theorem closeThenDup_inScope {fd : CLong} (hfd : 0 ≤ fd.toInt ∧ fd.toInt < 2 ^ 31) :
    Along System.step System.InScope (twoTracees fdTableCreate) (closeThenDup fd) := by
  have hclose : sysno 3 ∈ [Sysno.SYS_open, .SYS_openat, .SYS_close, .SYS_dup, .SYS_dup2] := by
    decide
  have hdup : sysno 32 ∈ [Sysno.SYS_open, .SYS_openat, .SYS_close, .SYS_dup, .SYS_dup2] := by
    decide
  have hone : 0 ≤ (1 : CInt).toInt := by decide
  refine Along.cons ⟨rfl, hclose, ⟨rfl, rfl⟩, trivial⟩ rfl ?_
  refine Along.cons ⟨_, rfl, ⟨rfl, rfl⟩, trivial, trivial⟩ rfl ?_
  refine Along.cons ⟨rfl, hdup, ⟨rfl, rfl⟩, trivial⟩ rfl ?_
  exact ⟨⟨_, rfl, ⟨rfl, rfl⟩, trivial, hfd, hone, rfl⟩, fun _ _ =>
    ⟨trivial, fun _ _ => ⟨trivial, fun _ _ => ⟨trivial, fun _ _ => trivial⟩⟩⟩⟩

/-- A duplicate under a number of its own may be handled before the `close`. -/
theorem shared_table_in_step_dup :
    (∃ s', (closeThenDup 5).foldlM System.step (twoTracees fdTableCreate) = .ok s') ∧
      Always System.step (fun s => s.pending = [] → s.InStep) (twoTracees fdTableCreate)
        (closeThenDup 5) := by
  refine shared_table_in_step (twoTracees_starts fdTableCreate_fits)
    (closeThenDup_inScope (by decide)) ?_
  refine Along.cons trivial rfl (Along.cons trivial rfl ?_)
  refine Along.cons trivial rfl (Along.cons trivial rfl ?_)
  refine ⟨?_, fun s h => ?_⟩
  · rintro c hc l₁ l₂ hsplit e he ⟨-, x, y, hx, hy, hconf⟩
    obtain rfl := Option.some.inj hc
    match l₁, hsplit, he with
    | [_], hsplit, he =>
      obtain rfl := List.mem_singleton.mp he
      obtain rfl := List.head_eq_of_cons_eq hsplit
      obtain rfl := Option.some.inj hx
      obtain rfl := Option.some.inj hy
      rcases hconf with h | h | h <;> exact absurd h (by decide)
    | _ :: _ :: l₁, hsplit, _ =>
      have hlen : 2 = (l₁ ++ (true, _) :: l₂).length + 2 := congrArg List.length hsplit
      rw [List.length_append, List.length_cons] at hlen
      omega
  obtain rfl := Except.ok.inj h
  refine ⟨?_, fun s h => ?_⟩
  · intro c hc
    cases hc
  obtain rfl := Except.ok.inj h
  refine ⟨?_, fun s h => trivial⟩
  rintro c hc l₁ l₂ hsplit e he
  match l₁, hsplit, he with
  | _ :: l₁, hsplit, _ =>
    have hlen : 1 = (l₁ ++ (false, c) :: l₂).length + 1 := congrArg List.length hsplit
    rw [List.length_append, List.length_cons] at hlen
    omega

/-- **A number that is reused too early loses its entry:** the kernel gives the
closed number to the duplicate, whose handler runs before that of the `close`. -/
theorem shared_table_loses_entry :
    Along System.step System.InScope (twoTracees fdTableCreate) (closeThenDup 2) ∧
      ¬Always System.step (fun s => s.pending = [] → s.InStep) (twoTracees fdTableCreate)
        (closeThenDup 2) := by
  refine ⟨closeThenDup_inScope (by decide), fun h => ?_⟩
  obtain ⟨s, hrun, hpending, hlook, hopen⟩ : ∃ s, (closeThenDup 2).foldlM System.step
      (twoTracees fdTableCreate) = .ok s ∧ s.pending = [] ∧
        (∀ t, (s.tracer true).Holds t → t.lookup 2 = none) ∧ (s.kernel 2).isSome := by
    refine ⟨_, rfl, rfl, fun t ht => ?_, rfl⟩
    obtain rfl := Option.some.inj ht.table
    rfl
  obtain ⟨t, ht, hagree⟩ := h.last hrun hpending true
  obtain ⟨entry, d, hentry, -, -⟩ := hagree.entry hopen
  rw [hlook t ht] at hentry
  cases hentry

end Iotrace
