/-
# The order in which syscalls are handled

The kernel performs the syscalls of the tracees that share a descriptor table in one order,
and their returns, and the events of children, are handled in another.  The file of a read,
the descriptors after a `dup` and the table of a child depend on the order only if two syscalls
*interfere*: one changes a descriptor that the other changes, looks up or copies
(`Completed.Interferes`).

`Tasks.InOrder` is the condition on a trace: syscalls that interfere are handled in the
order of the kernel.  With that a syscall is an action on the tables that can be exchanged
with the others (`Performed.action`).
-/

import Iotrace.KernelProcesses
import Iotrace.Library.Footprint

namespace Iotrace

open Kernel Footprint

namespace Kernel
namespace Effect

/-- The descriptors that an effect changes. -/
def writes : Effect → List CInt
  | .nothing => []
  | .opens fd _ _ | .closes fd | .dups _ fd _ | .peers _ fd _ | .setsCloexec fd _ => [fd]
  | .opensPair fdA _ fdB _ _ => [fdA, fdB]

/-- The descriptors that an effect depends on. -/
def reads : Effect → List CInt
  | .dups fd _ _ | .peers fd _ _ | .setsCloexec fd _ => [fd]
  | _ => []

theorem apply_of_not_mem {e : Effect} {fd : CInt} (h : fd ∉ e.writes) (K : Table) :
    e.apply K fd = K fd := by
  cases e with
  | nothing => rfl
  | opensPair fdA fileA fdB fileB cloexec =>
      simp only [writes, List.mem_cons, List.not_mem_nil, or_false, not_or] at h
      rw [apply, Function.update_of_ne h.2, Function.update_of_ne h.1]
  | _ => exact Function.update_of_ne (fun heq => h (List.mem_singleton.mpr heq)) _ _

theorem apply_congr {e : Effect} {K K' : Table} (h : ∀ fd ∈ e.reads, K fd = K' fd) {fd : CInt}
    (hfd : fd ∈ e.writes) : e.apply K fd = e.apply K' fd := by
  cases e with
  | nothing => cases hfd
  | opens | closes =>
      obtain rfl := List.mem_singleton.mp hfd
      rw [apply, apply, Function.update_self, Function.update_self]
  | opensPair fdA fileA fdB fileB cloexec =>
      simp only [writes, List.mem_cons, List.not_mem_nil, or_false] at hfd
      simp only [apply, Function.update_apply]
      split_ifs with hB hA
      · rfl
      · rfl
      · exact absurd hfd (not_or.mpr ⟨hA, hB⟩)
  | dups | peers | setsCloexec =>
      obtain rfl := List.mem_singleton.mp hfd
      rw [apply, apply, Function.update_self, Function.update_self,
        h _ (List.mem_singleton.mpr rfl)]

end Effect
end Kernel

/-! ### What a syscall depends on -/

namespace Completed

/-- The syscalls that are counted for the file of a descriptor. -/
def UsesFile (c : Completed) : Prop :=
  sysno c.sc ∈ [.SYS_close, .SYS_read, .SYS_readv, .SYS_preadv, .SYS_preadv2, .SYS_pread64,
    .SYS_write, .SYS_writev, .SYS_pwritev, .SYS_pwritev2, .SYS_pwrite64]

/-- The descriptor that a syscall uses, duplicates or flags; all, where it copies the table. -/
def Reads (c : Completed) (fd : CInt) : Prop :=
  (fd = c.arg .RDI ∧ (c.DuplicatesOrFlags ∨ c.UsesFile)) ∨ c.CopiesTable

/-- The descriptors that a syscall opens, closes, replaces or flags. -/
def Writes (c : Completed) (fd : CInt) : Prop := fd ∈ c.kernelEffect.writes

/-- One syscall changes a descriptor that the other changes or looks up. -/
def Interferes (c d : Completed) : Prop :=
  ∃ fd, c.Writes fd ∧ (d.Reads fd ∨ d.Writes fd) ∨ d.Writes fd ∧ c.Reads fd

variable {c : Completed} {K K' : Kernel.Table}

/-- A child that does not share has a copy. -/
theorem Creates.copiesTable {kind : Creation} {rdi : CLong} (h : c.Creates kind rdi)
    (hshares : ¬kind.Shares rdi) : c.CopiesTable :=
  Or.inr ⟨kind, h.1, h.2 ▸ hshares⟩

theorem reads_of_kernelEffect {fd : CInt} (h : fd ∈ c.kernelEffect.reads) : c.Reads fd := by
  refine Or.inl ?_
  unfold DuplicatesOrFlags
  unfold kernelEffect opensOf opensPairOf dupsOf at h
  cases hsc : sysno c.sc <;> simp only [hsc] at h ⊢
  case SYS_dup | SYS_dup2 | SYS_dup3 =>
    split_ifs at h
    · exact ⟨List.mem_singleton.mp h, Or.inl trivial⟩
    · cases h
  case SYS_fcntl =>
    split_ifs at h with _ hdup hdupc hsetfd
    · exact ⟨List.mem_singleton.mp h, Or.inl (by rw [hdup]; decide)⟩
    · exact ⟨List.mem_singleton.mp h, Or.inl (by rw [hdupc]; decide)⟩
    · exact ⟨List.mem_singleton.mp h, Or.inl (by rw [hsetfd]; decide)⟩
    · cases h
    · cases h
  case SYS_ioctl =>
    split_ifs at h with hpeer
    · exact ⟨List.mem_singleton.mp h, Or.inl hpeer.2⟩
    · cases h
  case SYS_pipe | SYS_pipe2 | SYS_socketpair =>
    split_ifs at h
    · split at h <;> cases h
    · cases h
  all_goals
    first
    | cases h
    | (split_ifs at h <;> cases h)

/-- **What the kernel promises** depends on the descriptor that is looked up. -/
theorem Permitted.congr (h : c.Permitted K) (hreads : ∀ fd, c.Reads fd → K fd = K' fd) :
    c.Permitted K' := by
  refine ⟨h.timed, fun hfol => ?_, h.execve⟩
  have hpresent : c.DuplicatesOrFlags → Present K (c.arg .RDI) → Present K' (c.arg .RDI) := by
    intro hdup hp
    unfold Present at hp ⊢
    rw [← hreads (c.arg .RDI) (Or.inl ⟨rfl, Or.inl hdup⟩)]
    exact hp
  obtain ⟨htimed, hreadable, hscope⟩ := h.followed hfol
  refine ⟨htimed, hreadable, ?_⟩
  unfold DuplicatesOrFlags at hpresent
  cases hsc : sysno c.sc <;> simp only [hsc] at hscope hpresent ⊢
  case SYS_dup | SYS_dup2 => exact ⟨hscope.1, hpresent trivial hscope.2⟩
  case SYS_dup3 => exact ⟨hscope.1, hpresent trivial hscope.2.1, hscope.2.2⟩
  case SYS_fcntl | SYS_ioctl => exact ⟨hscope.1, hscope.2.1, hpresent hscope.1 hscope.2.2⟩
  all_goals exact hscope

/-- **What a syscall adds to the statistics** depends on the descriptor that is looked up. -/
theorem fileEvents_congr (hreads : ∀ fd, c.Reads fd → K fd = K' fd) :
    c.fileEvents (kernelFile K (c.arg .RDI)) = c.fileEvents (kernelFile K' (c.arg .RDI)) := by
  have hfile : c.UsesFile → kernelFile K (c.arg .RDI) = kernelFile K' (c.arg .RDI) := by
    intro huses
    unfold kernelFile
    rw [hreads (c.arg .RDI) (Or.inl ⟨rfl, Or.inr huses⟩)]
  unfold UsesFile at hfile
  unfold fileEvents
  cases hsc : sysno c.sc <;> simp only [hsc] at hfile ⊢
  case SYS_close | SYS_read | SYS_readv | SYS_preadv | SYS_preadv2 | SYS_pread64 | SYS_write
      | SYS_writev | SYS_pwritev | SYS_pwritev2 | SYS_pwrite64 =>
    rw [hfile (by decide)]

end Completed

namespace Kernel

/-- A syscall that the kernel has performed is an action on the descriptors: it is possible
where the kernel permits it, adds to the statistics what it has added when it was
performed, and copies what it has copied. -/
def Performed.action (p : Performed) : Action CInt (Option Descriptor) where
  Enabled K := p.syscall.Permitted K ∧
    p.syscall.fileEvents (kernelFile K (p.syscall.arg .RDI)) =
      p.syscall.fileEvents (kernelFile p.before (p.syscall.arg .RDI)) ∧
    (p.syscall.CopiesTable → K = p.before)
  run := p.syscall.kernelEffect.apply
  Reads := p.syscall.Reads
  Writes := p.syscall.Writes
  enabled_congr hsame h :=
    ⟨h.1.congr hsame, (Completed.fileEvents_congr hsame).symm.trans h.2.1, fun hcopies =>
      (funext fun fd => (hsame fd (Or.inr hcopies)).symm).trans (h.2.2 hcopies)⟩
  run_congr hsame _ hx :=
    Effect.apply_congr (fun fd hfd => hsame fd (Completed.reads_of_kernelEffect hfd)) hx
  run_other K _ hx := Effect.apply_of_not_mem hx K

/-! ### Handling in order -/

namespace Tasks

/-- The syscalls on one table whose returns are still to be handled. -/
def pendingOn (T : Tasks) (k : ℕ) : List Performed :=
  T.pending.filter fun p => T.processes.files p.tracee = some k

/-- A table after these syscalls, in the order of the kernel. -/
def replay (T : Tasks) (k : ℕ) (K : Table) : Table :=
  (T.pendingOn k).foldl (fun K p => p.syscall.kernelEffect.apply K) K

/-- No syscall whose return is still to be handled changes the table. -/
def Settled (T : Tasks) (k : ℕ) : Prop := ∀ p ∈ T.pendingOn k, ∀ fd, ¬p.syscall.Writes fd

/-- The syscall of a tracee interferes with none that the kernel has performed earlier on the
same table and whose return is still to be handled. -/
def InTurn (T : Tasks) (tracee : CInt) : Prop :=
  ∀ p k, T.performed tracee = some p → T.processes.files tracee = some k →
    ∀ l₁ l₂, T.pendingOn k = l₁ ++ p :: l₂ → ∀ q ∈ l₁, ¬p.syscall.Interferes q.syscall

/-- **The condition on the order.**  The event of a child and the return of a syscall are
handled when it is their turn. -/
def InOrder (T : Tasks) : TraceEvent → Prop
  | .create _ tracee _ _ | .syscallReturn tracee => T.InTurn tracee
  | _ => True

/-- Whoever has waited longest may be handled. -/
theorem inTurn_oldest {T : Tasks} {tracee : CInt} {p : Performed} {l : List Performed}
    (h : T.pending = p :: l) (htracee : p.tracee = tracee)
    (hothers : ∀ q ∈ l, q.tracee ≠ tracee) : T.InTurn tracee := by
  subst htracee
  intro p' k hp' hk l₁ l₂ hsplit q hq
  have hperformed : T.performed p.tracee = some p := by
    rw [performed, h, List.find?_cons_of_pos (by simp)]
  obtain rfl : p = p' := Option.some.inj (hperformed.symm.trans hp')
  rw [pendingOn, h, List.filter_cons_of_pos (by simpa using hk)] at hsplit
  cases l₁ with
  | nil => cases hq
  | cons x l₁ =>
      have hmem : p ∈ l.filter fun q => T.processes.files q.tracee = some k := by
        rw [(List.cons.inj hsplit).2]
        exact List.mem_append_right _ List.mem_cons_self
      exact absurd rfl (hothers p (List.mem_of_mem_filter hmem))

end Tasks
end Kernel

end Iotrace
