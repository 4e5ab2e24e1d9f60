/-
# Failed duplicating and flag-setting calls

`dup`, `dup2`, `dup3`, the commands `F_DUPFD`, `F_DUPFD_CLOEXEC` and `F_SETFD` of
`fcntl` and the request `TIOCGPTPEER` of `ioctl` may fail, and `RAX` then holds
`-errno`.  The three return handlers treat the result in three ways:
`handle_dup_return` looks at the source descriptor only, `handle_fcntl_return`
compares the result with `-1`, as if it were that of the C library, and
`handle_ioctl_return` does not look at it.  A failed call mostly enters an
entry under the number `-errno`, or aborts where the source has no entry.

`failed_calls_unchanged` says exactly when a failed call leaves the table as it
is, over runs of the tracee and of the threads that share its table; as long as
all of them do, every number in the table is non-negative.
-/

import Iotrace.Refinement
import Iotrace.Execve

namespace Iotrace

open Runs

/-- Every descriptor in the table has a number that is not negative. -/
def FdTable.NonNegative (t : FdTable) : Prop :=
  ∀ fd entry, t.lookup fd = some entry → 0 ≤ fd.toInt

namespace FdTable.NonNegative

variable {t t' : FdTable}

theorem insert (ht : t.NonNegative) {fd : CInt} (hfd : 0 ≤ fd.toInt) (name : CString)
    (cloexec : Bool) : FdTable.NonNegative (fdTableInsert t fd name cloexec) := by
  intro x entry hx
  rw [lookup_fdTableInsert] at hx
  split_ifs at hx with heq
  · exact heq ▸ hfd
  · exact ht x entry hx

theorem remove (ht : t.NonNegative) (fd : CInt) :
    FdTable.NonNegative (fdTableRemove t fd) := by
  intro x entry hx
  rw [lookup_fdTableRemove] at hx
  split_ifs at hx
  exact ht x entry hx

theorem removeCloexec (ht : t.NonNegative) : FdTable.NonNegative (fdTableRemoveCloexec t) := by
  intro x entry hx
  rw [lookup_fdTableRemoveCloexec, Option.filter_eq_some_iff] at hx
  exact ht x entry hx.1

theorem insertDup (ht : t.NonNegative) {origFd dupFd : CInt} (hfd : 0 ≤ dupFd.toInt)
    {cloexec slave : Bool} (h : fdTableInsertDup origFd dupFd cloexec slave t = .ok t') :
    t'.NonNegative := by
  unfold fdTableInsertDup at h
  split at h
  · cases h
  · split_ifs at h
    · obtain rfl := Except.ok.inj h
      exact ht.insert hfd _ _
    · obtain rfl := Except.ok.inj h
      exact ht.insert hfd _ _

theorem setCloexec (ht : t.NonNegative) {fd : CInt} {cloexec : Bool}
    (h : fdTableSetCloexec fd cloexec t = .ok t') : t'.NonNegative := by
  unfold fdTableSetCloexec at h
  split at h
  · cases h
  · rename_i entry hentry
    obtain rfl := Except.ok.inj h
    exact ht.insert (ht fd entry hentry) _ _

theorem enterFd (ht : t.NonNegative) {rax : CLong} (hrax : rax.toInt < 2 ^ 31) (name : CString)
    (cloexec : Bool) : FdTable.NonNegative (enterFd t rax name cloexec) := by
  unfold Iotrace.enterFd
  split_ifs with hpos
  · exact ht.insert (by rw [toCInt_toInt hpos hrax]; exact hpos) _ _
  · exact ht

theorem enterPair (ht : t.NonNegative) {c : Completed} {ptr : CLong}
    (hst : c.rax = 0 → c.Stores ptr) (hpeek : c.rax = 0 → c.PeeksSecond ptr)
    (nameA nameB : CString) (cloexec : Bool) :
    FdTable.NonNegative (enterPair t c ptr nameA nameB cloexec) := by
  unfold Iotrace.enterPair
  split_ifs with hrax
  · obtain ⟨fdA, fdB, hfdA, hfdB, hvalA, hvalB⟩ := (hst hrax).peeked (hpeek hrax)
    obtain ⟨fdA', fdB', hfdA', hfdB', hposA, hposB⟩ := hst hrax
    obtain rfl := Option.some.inj (hfdA.symm.trans hfdA')
    obtain rfl := Option.some.inj (hfdB.symm.trans hfdB')
    rw [hvalA, hvalB]
    exact (ht.insert hposA _ _).insert hposB _ _
  · exact ht

end FdTable.NonNegative

/-- The standard streams have numbers that are not negative. -/
theorem fdTableCreate_nonNegative : fdTableCreate.NonNegative := by
  have hempty : FdTable.NonNegative ∅ := fun _ _ h => by simp at h
  exact ((hempty.insert (by decide) _ _).insert (by decide) _ _).insert (by decide) _ _

/-- The kernel returns `-errno` or an `int` that is not negative. -/
def Completed.Returns (c : Completed) : Prop := (∃ errno, c.FailsWith errno) ∨ c.Succeeds

/-- The duplicating and flag-setting calls. -/
def Completed.DuplicatesOrFlags (c : Completed) : Prop :=
  match sysno c.sc with
  | .SYS_dup | .SYS_dup2 | .SYS_dup3 => True
  | .SYS_fcntl => c.arg .RSI ∈ [F_DUPFD, F_DUPFD_CLOEXEC, F_SETFD]
  | .SYS_ioctl => c.arg .RSI = TIOCGPTPEER
  | _ => False

/-- What the kernel promises about the result of a call that the table depends on. -/
def Completed.Promised (c : Completed) : Prop :=
  c.Timed ∧ c.Readable ∧ (c.DuplicatesOrFlags → c.Returns) ∧
  match sysno c.sc with
  | .SYS_open | .SYS_openat | .SYS_socket | .SYS_eventfd | .SYS_eventfd2 | .SYS_epoll_create
  | .SYS_epoll_create1 | .SYS_accept | .SYS_accept4 => c.ReturnsInt
  | .SYS_pipe | .SYS_pipe2 => c.rax = 0 → c.Stores (c.call.user .RDI)
  | .SYS_socketpair => c.rax = 0 → c.Stores (c.call.user .R10)
  | _ => True

/-- A duplicating or flag-setting call that failed. -/
def Completed.FailedCall (c : Completed) : Prop :=
  c.DuplicatesOrFlags ∧ ∃ errno, c.FailsWith errno

/-- The failed calls that do no harm in the table `t`: a `dup` of a negative
number, an `fcntl` that failed with `EPERM`, whose number is 1, and an `F_SETFD`
of the flag that the descriptor has. -/
def Completed.Harmless (c : Completed) (t : FdTable) : Prop :=
  match sysno c.sc with
  | .SYS_dup | .SYS_dup2 | .SYS_dup3 => (c.arg .RDI).toInt < 0
  | .SYS_fcntl => c.FailsWith 1 ∨ c.arg .RSI = F_SETFD ∧
      ∃ entry, t.lookup (c.arg .RDI) = some entry ∧
        entry.cloexec = hasBit (c.arg .RDX) FD_CLOEXEC
  | _ => False

/-! ### One failed call -/

/-- Entering a negative number changes a table without negative numbers. -/
theorem fdTableInsertDup_ne_self {t : FdTable} (ht : t.NonNegative) {dupFd : CInt}
    (hfd : dupFd.toInt < 0) (origFd : CInt) (cloexec slave : Bool) :
    fdTableInsertDup origFd dupFd cloexec slave t ≠ .ok t := by
  have hnew : ∀ name, fdTableInsert t dupFd name cloexec ≠ t := by
    intro name heq
    have hlook : t.lookup dupFd = some ⟨name, cloexec⟩ := by
      rw [← heq, lookup_fdTableInsert, if_pos rfl]
    have hpos := ht dupFd _ hlook
    omega
  intro h
  unfold fdTableInsertDup at h
  split at h
  · cases h
  · split_ifs at h
    · exact hnew _ (Except.ok.inj h)
    · exact hnew _ (Except.ok.inj h)

/-- Setting the flag that an entry has is what changes nothing. -/
theorem fdTableSetCloexec_eq_self_iff (t : FdTable) (fd : CInt) (cloexec : Bool) :
    fdTableSetCloexec fd cloexec t = .ok t ↔
      ∃ entry, t.lookup fd = some entry ∧ entry.cloexec = cloexec := by
  cases hentry : t.lookup fd with
  | none =>
      rw [fdTableSetCloexec_of_lookup_none hentry]
      simp
  | some entry =>
      rw [fdTableSetCloexec_of_lookup hentry, Except.ok.injEq, FiniteMap.insert_eq_self_iff,
        hentry, Option.some.injEq]
      constructor
      · intro h
        exact ⟨entry, rfl, congrArg FdTableEntry.cloexec h⟩
      · rintro ⟨entry', hentry', rfl⟩
        obtain rfl := Option.some.inj hentry'
        rfl

/-- **When a failed call changes nothing**, in a table without negative numbers:
exactly when it is harmless. -/
theorem Completed.tableEffect_eq_self_iff {c : Completed} {t : FdTable} (ht : t.NonNegative)
    (hfail : c.FailedCall) : c.tableEffect t = .ok t ↔ c.Harmless t := by
  obtain ⟨hkind, errno, herr⟩ := hfail
  have hrax := herr.toCInt_rax
  have hrange : 1 ≤ errno ∧ errno ≤ 4095 := ⟨herr.1, herr.2.1⟩
  have hneg : (toCInt c.rax).toInt < 0 := by omega
  unfold DuplicatesOrFlags at hkind
  unfold tableEffect Harmless
  cases hsc : sysno c.sc <;> simp only [hsc] at hkind ⊢
  case SYS_dup | SYS_dup2 | SYS_dup3 =>
    constructor
    · intro h
      by_contra hpos
      have hne : c.arg .RDI ≠ toCInt c.rax := by
        intro heq
        rw [heq] at hpos
        exact hpos hneg
      rw [if_pos ⟨by omega, hne⟩] at h
      exact fdTableInsertDup_ne_self ht hneg _ _ _ h
    · intro h
      rw [if_neg fun h' => absurd h'.1 (by omega)]
  case SYS_fcntl =>
    have hone : c.FailsWith 1 ↔ toCInt c.rax = -1 := by
      constructor
      · intro h
        exact BitVec.eq_of_toInt_eq h.toCInt_rax
      · intro h
        have hval : (toCInt c.rax).toInt = -1 := by rw [h]; rfl
        have heq : errno = 1 := by omega
        exact heq ▸ herr
    by_cases h₁ : toCInt c.rax = -1
    · rw [if_neg (not_not.mpr h₁)]
      exact iff_of_true rfl (Or.inl (hone.mpr h₁))
    · rw [if_pos h₁]
      have hno : ¬c.FailsWith 1 := fun h => h₁ (hone.mp h)
      split_ifs with hdup hdupc hsetfd
      · refine iff_of_false (fdTableInsertDup_ne_self ht hneg _ _ _) ?_
        rintro (h | ⟨h, -⟩)
        · exact hno h
        · rw [hdup] at h
          exact absurd h (by decide)
      · refine iff_of_false (fdTableInsertDup_ne_self ht hneg _ _ _) ?_
        rintro (h | ⟨h, -⟩)
        · exact hno h
        · rw [hdupc] at h
          exact absurd h (by decide)
      · rw [fdTableSetCloexec_eq_self_iff]
        exact ⟨fun h => Or.inr ⟨hsetfd, h⟩, fun h => (h.resolve_left hno).2⟩
      · exact absurd hkind (by simp [hdup, hdupc, hsetfd])
  case SYS_ioctl =>
    rw [if_pos hkind]
    exact iff_of_false (fdTableInsertDup_ne_self ht hneg _ _ _) id

/-- **The numbers stay non-negative** if every array can be read and a failed
call does no harm. -/
theorem Completed.tableEffect_nonNegative {c : Completed} {t t' : FdTable} (ht : t.NonNegative)
    (hc : c.Promised) (hpeek : c.ArrayPeeked) (hharm : c.FailedCall → c.Harmless t)
    (h : c.tableEffect t = .ok t') : t'.NonNegative := by
  by_cases hfail : c.FailedCall
  · rw [(tableEffect_eq_self_iff ht hfail).mpr (hharm hfail)] at h
    exact Except.ok.inj h ▸ ht
  · obtain ⟨-, -, hret, hnum⟩ := hc
    have hsucc : c.DuplicatesOrFlags → 0 ≤ (toCInt c.rax).toInt := by
      intro hkind
      rcases hret hkind with herr | hs
      · exact absurd ⟨hkind, herr⟩ hfail
      · rw [toCInt_toInt hs.1 hs.2]
        exact hs.1
    unfold DuplicatesOrFlags at hsucc
    unfold ArrayPeeked at hpeek
    unfold tableEffect at h
    cases hsc : sysno c.sc <;> simp only [hsc] at hsucc hpeek hnum h
    case SYS_open | SYS_openat | SYS_socket | SYS_eventfd | SYS_eventfd2 | SYS_epoll_create
        | SYS_epoll_create1 | SYS_accept | SYS_accept4 =>
      exact Except.ok.inj h ▸ ht.enterFd hnum _ _
    case SYS_close => exact Except.ok.inj h ▸ ht.remove _
    case SYS_pipe | SYS_pipe2 | SYS_socketpair =>
      exact Except.ok.inj h ▸ ht.enterPair hnum hpeek _ _ _
    case SYS_dup | SYS_dup2 | SYS_dup3 =>
      split_ifs at h
      · exact ht.insertDup (hsucc trivial) h
      · exact Except.ok.inj h ▸ ht
    case SYS_fcntl =>
      split_ifs at h with _ hdup hdupc
      · exact ht.insertDup (hsucc (by simp [hdup])) h
      · exact ht.insertDup (hsucc (by simp [hdupc])) h
      · exact ht.setCloexec h
      · exact Except.ok.inj h ▸ ht
      · exact Except.ok.inj h ▸ ht
    case SYS_ioctl =>
      split_ifs at h with hcmd
      · exact ht.insertDup (hsucc hcmd) h
      · exact Except.ok.inj h ▸ ht
    all_goals exact Except.ok.inj h ▸ ht

/-! ### Runs of the threads that share a table -/

/-- A completed syscall of the tracee itself, or of another thread that shares
its table, whose record has the scratch fields `scratch`. -/
inductive Turn where
  | own (c : Completed)
  | other (scratch : ThreadTmps) (c : Completed)

/-- The syscall of a turn. -/
def Turn.call : Turn → Completed
  | .own c => c
  | .other _ c => c

/-- The handlers of the tracee's thread, or of the other one, on the shared heap. -/
def sharedStep (s : Tracer) : Turn → Except Abort Tracer
  | .own c => handleCompleted s c
  | .other scratch c => do
    let s' ← handleCompleted { s with
      tmps := { scratch with
        fdTable := s.tmps.fdTable
        shareCount := s.tmps.shareCount
        fdMutex := s.tmps.fdMutex } } c
    .ok { s with heap := s'.heap }

/-- The kernel keeps its promises, and the others do not call `execve`, with
which a thread stops sharing. -/
def Turn.InScope (a : Turn) : Prop :=
  a.call.Promised ∧ ∀ scratch c, a = .other scratch c → sysno c.sc ≠ .SYS_execve

/-- The tracee's table is there, without negative numbers. -/
def KeysNonNegative (s : Tracer) : Prop :=
  ∃ t, s.Alive t ∧ t.NonNegative

/-- A failed duplicating or flag-setting call does not abort and leaves the table
as it is. -/
def FailureUnchanged (s : Tracer) (a : Turn) : Prop :=
  a.call.FailedCall → ∀ t, s.Holds t → ∃ s', sharedStep s a = .ok s' ∧ s'.Holds t

/-- Every failed call is harmless, and every array can be read. -/
def FailureHarmless (s : Tracer) (a : Turn) : Prop :=
  a.call.ArrayPeeked ∧ (a.call.FailedCall → ∀ t, s.Holds t → a.call.Harmless t)

/-- **A turn on the contents of the table.** -/
theorem sharedStep_contents {s : Tracer} {t : FdTable} {a : Turn} (hs : s.Alive t)
    (ha : a.InScope) :
    ∃ f : FdTable → Tracer, sharedStep s a = (a.call.contents t).map f ∧
      ∀ t', a.call.contents t = .ok t' → (f t').Alive t' := by
  cases a with
  | own c => exact handleCompleted_contents hs ha.1.1 ha.1.2.1
  | other scratch c =>
      have hs₁ : Tracer.Holds { s with
          tmps := { scratch with
            fdTable := s.tmps.fdTable
            shareCount := s.tmps.shareCount
            fdMutex := s.tmps.fdMutex } } t := ⟨hs.1.table, hs.1.mutex⟩
      have hexec := ha.2 scratch c rfl
      obtain ⟨tmps, fileStat, syscalls, -, hstep⟩ :=
        handleCompleted_eq (c := c) hs₁ ha.1.1 ha.1.2.1 hexec
      refine ⟨fun t' => { s with heap := s.heap.setTable s.tmps.fdTable t' }, ?_, fun t' _ => ?_⟩
      · rw [sharedStep, hstep, Turn.call, Completed.contents, if_neg hexec]
        cases c.tableEffect t <;> rfl
      · exact ⟨hs.1.setTable t' s.tmps ⟨rfl, rfl, rfl⟩ _ _, hs.2⟩

/-- A turn that leaves the table as it is has no effect on its contents. -/
theorem contents_of_unchanged {s s' : Tracer} {t : FdTable} {a : Turn} (hs : s.Alive t)
    (ha : a.InScope) (hstep : sharedStep s a = .ok s') (hs' : s'.Holds t) :
    a.call.contents t = .ok t := by
  obtain ⟨f, hstep', hf⟩ := sharedStep_contents hs ha
  rw [hstep] at hstep'
  cases heff : a.call.contents t with
  | error e => rw [heff] at hstep'; cases hstep'
  | ok t' =>
      rw [heff] at hstep'
      obtain rfl := Except.ok.inj hstep'
      rw [(hf t' heff).1.unique hs']

/-- A duplicating or flag-setting call is not an `execve`. -/
theorem Completed.contents_of_duplicatesOrFlags {c : Completed} (h : c.DuplicatesOrFlags)
    (t : FdTable) : c.contents t = c.tableEffect t := by
  refine if_neg fun hsc => ?_
  rw [DuplicatesOrFlags, hsc] at h
  exact h

/-- The numbers stay non-negative over an `execve`, too. -/
theorem Completed.contents_nonNegative {c : Completed} {t t' : FdTable} (ht : t.NonNegative)
    (hc : c.Promised) (hpeek : c.ArrayPeeked) (hharm : c.FailedCall → c.Harmless t)
    (h : c.contents t = .ok t') : t'.NonNegative := by
  unfold contents at h
  split_ifs at h
  · obtain rfl := Except.ok.inj h
    exact ht.removeCloexec
  · exact tableEffect_nonNegative ht hc hpeek hharm h

/-- **One turn**, from a table without negative numbers. -/
theorem failureUnchanged_iff {s : Tracer} {a : Turn} (h : KeysNonNegative s) (ha : a.InScope) :
    (FailureUnchanged s a ∧ ∀ s', sharedStep s a = .ok s' → KeysNonNegative s') ↔
      FailureHarmless s a := by
  obtain ⟨t, hs, ht⟩ := h
  obtain ⟨f, hstep, hf⟩ := sharedStep_contents hs ha
  constructor
  · rintro ⟨hsame, hkeep⟩
    refine ⟨?_, fun hfail t₁ hs₁ => ?_⟩
    · by_contra hp
      obtain ⟨t', heff⟩ := Completed.tableEffect_ok_of_not_peeked hp t
      have hexec : sysno a.call.sc ≠ .SYS_execve := by
        intro hsc
        rw [Completed.ArrayPeeked, hsc] at hp
        exact hp trivial
      have hcont : a.call.contents t = .ok t' := (if_neg hexec).trans heff
      rw [hcont] at hstep
      obtain ⟨t₁, hs₁, ht₁⟩ := hkeep _ hstep
      obtain rfl := (hf t' hcont).1.unique hs₁.1
      obtain ⟨entry, hentry⟩ :=
        Option.isSome_iff_exists.mp (Completed.tableEffect_not_peeked hp heff)
      exact absurd (ht₁ (-1) entry hentry) (by decide)
    · obtain rfl := hs.1.unique hs₁
      obtain ⟨s', hstep', hs'⟩ := hsame hfail t hs.1
      have hcont := contents_of_unchanged hs ha hstep' hs'
      rw [Completed.contents_of_duplicatesOrFlags hfail.1] at hcont
      exact (Completed.tableEffect_eq_self_iff ht hfail).mp hcont
  · rintro ⟨hpeek, hharm⟩
    refine ⟨fun hfail t₁ hs₁ => ?_, fun s' hs' => ?_⟩
    · obtain rfl := hs.1.unique hs₁
      have hcont : a.call.contents t = .ok t := by
        rw [Completed.contents_of_duplicatesOrFlags hfail.1]
        exact (Completed.tableEffect_eq_self_iff ht hfail).mpr (hharm hfail t hs.1)
      rw [hcont] at hstep
      exact ⟨f t, hstep, (hf t hcont).1⟩
    · rw [hstep] at hs'
      cases hcont : a.call.contents t with
      | error e => rw [hcont] at hs'; cases hs'
      | ok t' =>
          rw [hcont] at hs'
          obtain rfl := Except.ok.inj hs'
          exact ⟨t', hf t' hcont, Completed.contents_nonNegative ht ha.1 hpeek
            (fun hfail => hharm hfail t hs.1) hcont⟩

/-- **A failed duplicating or flag-setting call leaves the table as it is, and no
table ever has a negative number, exactly as long as** every such failure is
harmless and every array of a pair can be read.  This is over every run of the
tracee and the threads that share its table, from any table without negative
numbers, with whatever results the calls have. -/
theorem failed_calls_unchanged {s : Tracer} {l : List Turn} (hs : KeysNonNegative s)
    (hscope : Along sharedStep (fun _ a => a.InScope) s l) :
    Always sharedStep KeysNonNegative s l ∧ Along sharedStep FailureUnchanged s l ↔
      Along sharedStep FailureHarmless s l :=
  always_and_along_iff (fun _ _ hI hQ => failureUnchanged_iff hI hQ) hscope hs

theorem keysNonNegative_ofTable {t : FdTable} (ht : t.NonNegative) :
    KeysNonNegative (Tracer.ofTable t) :=
  ⟨t, Tracer.ofTable_alive t, ht⟩

/-- `dup` of a descriptor, with the given result. -/
def dupReturns (fd rax : CLong) : Completed := .ofRegs 32 fd 0 0 0 rax fun _ => none

theorem dupReturns_inScope {fd rax : CLong} (h : (dupReturns fd rax).Returns) :
    Turn.InScope (.own (dupReturns fd rax)) :=
  ⟨⟨⟨rfl, rfl⟩, trivial, fun _ => h, trivial⟩, fun _ _ ha => by cases ha⟩

/-- A `dup` of the descriptor -1 that returns `-EBADF`, then one of the standard
output. -/
theorem failed_calls_unchanged_dup :
    Always sharedStep KeysNonNegative (Tracer.ofTable fdTableCreate)
      [.own (dupReturns (-1) (-9)), .own (dupReturns 1 3)] ∧
    Along sharedStep FailureUnchanged (Tracer.ofTable fdTableCreate)
      [.own (dupReturns (-1) (-9)), .own (dupReturns 1 3)] := by
  have hfail : (dupReturns (-1) (-9)).FailsWith 9 := ⟨by decide, by decide, by decide⟩
  have hsucc : (dupReturns 1 3).Succeeds := ⟨by decide, by decide⟩
  refine (failed_calls_unchanged (keysNonNegative_ofTable fdTableCreate_nonNegative) ?_).mpr ?_
  · exact ⟨dupReturns_inScope (Or.inl ⟨9, hfail⟩), fun _ _ =>
      ⟨dupReturns_inScope (Or.inr hsucc), fun _ _ => trivial⟩⟩
  · refine ⟨⟨trivial, fun _ _ _ => show (-1 : CInt).toInt < 0 by decide⟩, fun _ _ =>
      ⟨⟨trivial, ?_⟩, fun _ _ => trivial⟩⟩
    rintro ⟨-, errno, h₁, -, herr⟩
    have hpos := hsucc.1
    change 0 ≤ (dupReturns 1 3).rax.toInt at hpos
    have herr' : (dupReturns 1 3).rax.toInt = -errno := herr
    omega

/-- **A `dup` of the standard output that returns `-EMFILE`** is entered under the
number -24. -/
theorem failed_dup_enters_ghost :
    Along sharedStep (fun _ a => a.InScope) (Tracer.ofTable fdTableCreate)
      [.own (dupReturns 1 (-24))] ∧
    (dupReturns 1 (-24)).FailedCall ∧
    ¬Along sharedStep FailureUnchanged (Tracer.ofTable fdTableCreate)
      [.own (dupReturns 1 (-24))] := by
  have hfail : (dupReturns 1 (-24)).FailsWith 24 := ⟨by decide, by decide, by decide⟩
  have hcall : (dupReturns 1 (-24)).FailedCall := ⟨trivial, 24, hfail⟩
  refine ⟨⟨dupReturns_inScope (Or.inl ⟨24, hfail⟩), fun _ _ => trivial⟩, hcall, fun h => ?_⟩
  have hs := Tracer.ofTable_holds fdTableCreate
  obtain ⟨s', hstep, hs'⟩ := h.1 hcall fdTableCreate hs
  have hsame : (dupReturns 1 (-24)).tableEffect fdTableCreate = .ok fdTableCreate := by
    rw [← Completed.contents_of_duplicatesOrFlags hcall.1]
    exact contents_of_unchanged (Tracer.ofTable_alive _)
      (dupReturns_inScope (Or.inl ⟨24, hfail⟩)) hstep hs'
  have hharm := (Completed.tableEffect_eq_self_iff fdTableCreate_nonNegative hcall).mp hsame
  exact absurd hharm (show ¬(1 : CInt).toInt < 0 by decide)

end Iotrace
