/-
# Every open descriptor has an entry

`fd_table_insert_dup` and `fd_table_set_cloexec` use the entry of the descriptor
that they are called for without a check, so a call that succeeds in the kernel
must not meet a descriptor without one.  The tracee may use any syscalls: those
that the handlers do not follow may open, close and replace descriptors as they
like (`KernelAllows`), and so may a file or device that is read or controlled.

`no_missing_entry` says over which runs every open descriptor has its entry: the
tracee must have started with the descriptors that the table knows, and no call
may open one behind the back of the handlers.
-/

import Iotrace.FailedCalls

namespace Iotrace

open Kernel Runs

/-- A completed syscall, and the kernel's table after it, which the tracee's own calls
change and nobody else. -/
abbrev Step := Completed × Kernel.Table

/-- The handlers do their part, the kernel has done its own. -/
def followedStep (p : Tracer × Kernel.Table) (a : Step) :
    Except Abort (Tracer × Kernel.Table) := do
  let s ← handleCompleted p.1 a.1
  .ok (s, a.2)

/-- The calls whose effect on the descriptors is known from their registers. -/
def Completed.Followed (c : Completed) : Prop :=
  match sysno c.sc with
  | .SYS_open | .SYS_openat | .SYS_close | .SYS_pipe | .SYS_pipe2 | .SYS_socket
  | .SYS_socketpair | .SYS_eventfd | .SYS_eventfd2 | .SYS_epoll_create | .SYS_epoll_create1
  | .SYS_accept | .SYS_accept4 => True
  | _ => c.DuplicatesOrFlags

/-- The kernel stores two different numbers in the array of a pair. -/
def Completed.StoresPair (c : Completed) : Prop :=
  match sysno c.sc with
  | .SYS_pipe | .SYS_pipe2 => c.rax = 0 → c.Stores (c.call.user .RDI) ∧
      intAt c.ret.mem (c.call.user .RDI) ≠ intAt c.ret.mem (c.call.user .RDI + 4)
  | .SYS_socketpair => c.rax = 0 → c.Stores (c.call.user .R10) ∧
      intAt c.ret.mem (c.call.user .R10) ≠ intAt c.ret.mem (c.call.user .R10 + 4)
  | _ => True

/-- What the kernel may do.  Descriptors have non-negative numbers.  The followed
calls have their effect, where a duplicating or flag-setting one succeeds on an
open descriptor only; an `execve` opens nothing; all other calls may do anything. -/
structure KernelAllows (K : Kernel.Table) (a : Step) : Prop where
  timed : a.1.Timed
  readable : a.1.Readable
  numbers : NonNegative a.2
  pair : a.1.StoresPair
  followed : a.1.Followed → a.2 = a.1.kernelEffect.apply K
  source : a.1.DuplicatesOrFlags → 0 ≤ a.1.rax.toInt →
    a.1.rax.toInt < 2 ^ 31 ∧ Present K (a.1.arg .RDI)
  execve : sysno a.1.sc = .SYS_execve → ∀ fd, (a.2 fd).isSome → (K fd).isSome

/-- Every open descriptor has an entry. -/
def Covers (t : FdTable) (K : Kernel.Table) : Prop :=
  ∀ fd, (K fd).isSome → (t.lookup fd).isSome

/-- The second number of a pair has an entry already. -/
def Completed.SecondEntered (c : Completed) (t : FdTable) : Prop :=
  match sysno c.sc with
  | .SYS_pipe | .SYS_pipe2 =>
    ∀ fd, intAt c.ret.mem (c.call.user .RDI + 4) = some fd → (t.lookup fd).isSome
  | .SYS_socketpair =>
    ∀ fd, intAt c.ret.mem (c.call.user .R10 + 4) = some fd → (t.lookup fd).isSome
  | _ => True

/-- The calls that keep every open descriptor covered: a pair whose array can be
read, an `execve` that closes every descriptor whose entry is marked, and a call
that the handlers do not follow and that opens no descriptor without entry. -/
def Completed.KeepsCover (c : Completed) (t : FdTable) (K K' : Kernel.Table) : Prop :=
  (c.ArrayPeeked ∨ c.SecondEntered t) ∧
  (sysno c.sc = .SYS_execve →
    ∀ fd entry, t.lookup fd = some entry → entry.cloexec = true → K' fd = none) ∧
  (¬c.Followed → ∀ fd, K fd = none → (K' fd).isSome → (t.lookup fd).isSome)

namespace Covers

variable {t : FdTable} {K : Kernel.Table}

theorem update (h : Covers t K) (fd : CInt) (name : CString) (cloexec : Bool)
    (d : Option Descriptor) :
    Covers (fdTableInsert t fd name cloexec) (Function.update K fd d) := by
  intro x hx
  rw [lookup_fdTableInsert]
  split_ifs with heq
  · rfl
  · rw [Function.update_of_ne heq] at hx
    exact h x hx

theorem insert (h : Covers t K) (fd : CInt) (name : CString) (cloexec : Bool) :
    Covers (fdTableInsert t fd name cloexec) K := by
  intro x hx
  rw [lookup_fdTableInsert]
  split_ifs
  · rfl
  · exact h x hx

theorem remove (h : Covers t K) (fd : CInt) :
    Covers (fdTableRemove t fd) (Function.update K fd none) := by
  intro x hx
  rw [lookup_fdTableRemove]
  split_ifs with heq
  · rw [heq, Function.update_self] at hx
    cases hx
  · rw [Function.update_of_ne heq] at hx
    exact h x hx

theorem enterFd (h : Covers t K) (c : Completed) (name : CString) (cloexec : Bool) :
    Covers (enterFd t c.rax name cloexec) ((c.opensOf name cloexec).apply K) := by
  unfold Iotrace.enterFd Completed.opensOf
  split_ifs
  · exact h.update _ _ _ _
  · exact h

/-- A duplicate or a peer has an entry, whatever it is of. -/
theorem insertDup (h : Covers t K) {t' : FdTable} {origFd dupFd : CInt} {cloexec slave : Bool}
    (ht' : fdTableInsertDup origFd dupFd cloexec slave t = .ok t') (d : Option Descriptor) :
    Covers t' (Function.update K dupFd d) ∧ Covers t' K := by
  unfold fdTableInsertDup at ht'
  split at ht'
  · cases ht'
  · split_ifs at ht'
    · obtain rfl := Except.ok.inj ht'
      exact ⟨h.update _ _ _ _, h.insert _ _ _⟩
    · obtain rfl := Except.ok.inj ht'
      exact ⟨h.update _ _ _ _, h.insert _ _ _⟩

theorem setCloexec (h : Covers t K) {t' : FdTable} {fd : CInt} {cloexec : Bool}
    (ht' : fdTableSetCloexec fd cloexec t = .ok t') (d : Option Descriptor) :
    Covers t' (Function.update K fd d) ∧ Covers t' K := by
  unfold fdTableSetCloexec at ht'
  split at ht'
  · cases ht'
  · obtain rfl := Except.ok.inj ht'
    exact ⟨h.update _ _ _ _, h.insert _ _ _⟩

/-- **A pair is covered** if its array can be read or its second number had an
entry, and only then. -/
theorem enterPair_iff (h : Covers t K) {c : Completed} {ptr : CLong}
    (hst : c.rax = 0 → c.Stores ptr ∧ intAt c.ret.mem ptr ≠ intAt c.ret.mem (ptr + 4))
    (nameA nameB fileA fileB : CString) (cloexec cloexec' : Bool) :
    Covers (enterPair t c ptr nameA nameB cloexec)
        ((c.opensPairOf ptr fileA fileB cloexec').apply K) ↔
      (c.rax = 0 → c.PeeksSecond ptr) ∨
        ∀ fd, intAt c.ret.mem (ptr + 4) = some fd → (t.lookup fd).isSome := by
  unfold Iotrace.enterPair Completed.opensPairOf
  split_ifs with hrax
  · obtain ⟨hstores, hdiff⟩ := hst hrax
    by_cases hpeek : c.PeeksSecond ptr
    · obtain ⟨fdA, fdB, hfdA, hfdB, hvalA, hvalB⟩ := hstores.peeked hpeek
      rw [hvalA, hvalB, hfdA, hfdB]
      exact iff_of_true ((h.update fdA _ _ _).update fdB _ _ _) (Or.inl fun _ => hpeek)
    · obtain ⟨fdA, fdB, hfdA, hfdB, hposA, hposB⟩ := hstores
      obtain ⟨data, hdata⟩ := peekData_of_intAt hfdA hfdB
      have hvalB := toCInt_peekDataUnchecked_none (Option.not_isSome_iff_eq_none.mp hpeek)
      have hne : fdB ≠ fdA := fun heq => hdiff (by rw [hfdA, hfdB, heq])
      have hneg : fdB ≠ -1 := by
        rintro rfl
        exact absurd hposB (by decide)
      rw [toCInt_peekDataUnchecked hdata hfdA, hvalB, hfdA, hfdB]
      constructor
      · intro hcov
        refine Or.inr fun fd hfd => ?_
        obtain rfl := Option.some.inj hfd
        have hB := hcov fdB (by rw [Effect.apply, Function.update_self]; rfl)
        rwa [lookup_fdTableInsert, if_neg hneg, lookup_fdTableInsert, if_neg hne] at hB
      · intro hor
        have hB : (t.lookup fdB).isSome := by
          rcases hor with hp | hsecond
          · exact absurd (hp hrax) hpeek
          · exact hsecond fdB rfl
        have hcov := ((h.update fdA nameA cloexec (some ⟨fileA, cloexec'⟩)).insert (-1) nameB
          cloexec)
        intro x hx
        by_cases hxB : x = fdB
        · rw [hxB, lookup_fdTableInsert, if_neg hneg, lookup_fdTableInsert, if_neg hne]
          exact hB
        · rw [Effect.apply, Function.update_of_ne hxB] at hx
          exact hcov x hx
  · exact iff_of_true h (Or.inl fun h' => absurd h' hrax)

end Covers

/-! ### One step -/

/-- A call that the handlers do not follow leaves the table as it is. -/
theorem Completed.tableEffect_of_not_followed {c : Completed} (h : ¬c.Followed) (t : FdTable) :
    c.tableEffect t = .ok t := by
  unfold Followed DuplicatesOrFlags at h
  unfold tableEffect
  cases hsc : sysno c.sc <;> simp only [hsc, not_true_eq_false] at h ⊢
  case SYS_fcntl =>
    split_ifs with _ hdup hdupc hsetfd
    · exact absurd (by simp [hdup]) h
    · exact absurd (by simp [hdupc]) h
    · exact absurd (by simp [hsetfd]) h
    · rfl
    · rfl
  case SYS_ioctl => rw [if_neg h]

theorem Completed.arrayPeeked_of_not_followed {c : Completed} (h : ¬c.Followed) :
    c.ArrayPeeked := by
  unfold Followed at h
  unfold ArrayPeeked
  cases hsc : sysno c.sc <;> simp only [hsc, not_true_eq_false] at h ⊢

/-- **What a followed call does to the cover:** a pair may end it, no other call does. -/
theorem Completed.covers_of_followed {a : Step} {t t' : FdTable} {K : Kernel.Table}
    (h : Covers t K) (hK : KernelAllows K a) (hfol : a.1.Followed)
    (ht' : a.1.tableEffect t = .ok t') :
    Covers t' a.2 ↔ a.1.ArrayPeeked ∨ a.1.SecondEntered t := by
  have hpair := hK.pair
  have hsource := hK.source
  rw [hK.followed hfol]
  unfold StoresPair at hpair
  unfold DuplicatesOrFlags at hsource
  unfold tableEffect at ht'
  unfold kernelEffect ArrayPeeked SecondEntered
  have hfol' := hfol
  unfold Followed DuplicatesOrFlags at hfol'
  cases hsc : sysno a.1.sc <;> simp only [hsc] at hpair hsource ht' hfol' ⊢
  case SYS_open | SYS_openat | SYS_socket | SYS_eventfd | SYS_eventfd2 | SYS_epoll_create
      | SYS_epoll_create1 | SYS_accept | SYS_accept4 =>
    obtain rfl := Except.ok.inj ht'
    exact iff_of_true (h.enterFd _ _ _) (Or.inl trivial)
  case SYS_close =>
    obtain rfl := Except.ok.inj ht'
    exact iff_of_true (h.remove _) (Or.inl trivial)
  case SYS_pipe | SYS_pipe2 | SYS_socketpair =>
    obtain rfl := Except.ok.inj ht'
    exact h.enterPair_iff hpair _ _ _ _ _ _
  case SYS_dup | SYS_dup2 | SYS_dup3 =>
    refine iff_of_true ?_ (Or.inl trivial)
    unfold dupsOf
    split_ifs at ht' with hcond
    · obtain ⟨hdup, hkeep⟩ := h.insertDup ht' ((K (a.1.arg .RDI)).map fun d => ⟨d.file, _⟩)
      split_ifs
      · exact hdup
      · exact hkeep
    · obtain rfl := Except.ok.inj ht'
      rw [if_neg]
      · exact h
      · rintro ⟨hpos, hne⟩
        exact hcond ⟨(hsource trivial hpos).2.1, hne⟩
  case SYS_fcntl =>
    refine iff_of_true ?_ (Or.inl trivial)
    by_cases hpos : 0 ≤ a.1.rax.toInt
    · obtain ⟨hint, -⟩ := hsource hfol' hpos
      rw [if_pos (toCInt_ne_neg_one hpos hint)] at ht'
      rw [if_pos hpos]
      split_ifs at ht' ⊢
      · exact (h.insertDup ht' _).1
      · exact (h.insertDup ht' _).1
      · exact (h.setCloexec ht' _).1
      · exact Except.ok.inj ht' ▸ h
    · rw [if_neg hpos]
      split_ifs at ht'
      · exact (h.insertDup ht' none).2
      · exact (h.insertDup ht' none).2
      · exact (h.setCloexec ht' none).2
      · exact Except.ok.inj ht' ▸ h
      · exact Except.ok.inj ht' ▸ h
  case SYS_ioctl =>
    refine iff_of_true ?_ (Or.inl trivial)
    rw [if_pos hfol'] at ht'
    split_ifs
    · exact (h.insertDup ht' _).1
    · exact (h.insertDup ht' none).2

/-- **One call on the contents of the table.** -/
theorem Completed.tableEffect_covers_iff {a : Step} {t t' : FdTable} {K : Kernel.Table}
    (h : Covers t K) (hK : KernelAllows K a) (hexec : sysno a.1.sc ≠ .SYS_execve)
    (ht' : a.1.tableEffect t = .ok t') : Covers t' a.2 ↔ a.1.KeepsCover t K a.2 := by
  unfold KeepsCover
  by_cases hfol : a.1.Followed
  · rw [covers_of_followed h hK hfol ht']
    exact ⟨fun hor => ⟨hor, fun h' => absurd h' hexec, fun h' => absurd hfol h'⟩, fun h' => h'.1⟩
  · rw [tableEffect_of_not_followed hfol] at ht'
    obtain rfl := Except.ok.inj ht'
    constructor
    · intro hcov
      exact ⟨Or.inl (arrayPeeked_of_not_followed hfol), fun h' => absurd h' hexec,
        fun _ fd _ hfd => hcov fd hfd⟩
    · rintro ⟨-, -, hnew⟩ fd hfd
      cases hopen : K fd with
      | none => exact hnew hfol fd hopen hfd
      | some d => exact h fd (by rw [hopen]; rfl)

/-- A call that aborts is a duplicating or flag-setting one. -/
theorem Completed.keepsCover_of_error {c : Completed} {t : FdTable} {e : Abort}
    (h : c.tableEffect t = .error e) (hexec : sysno c.sc ≠ .SYS_execve) (K K' : Kernel.Table) :
    c.KeepsCover t K K' := by
  have hfol : c.Followed := by
    by_contra hno
    rw [tableEffect_of_not_followed hno] at h
    cases h
  refine ⟨Or.inl ?_, fun h' => absurd h' hexec, fun h' => absurd hfol h'⟩
  by_contra hp
  obtain ⟨t', ht'⟩ := tableEffect_ok_of_not_peeked hp t
  rw [h] at ht'
  cases ht'

/-- **An `execve`** drops the marked entries, and must close their descriptors. -/
theorem covers_removeCloexec_iff {t : FdTable} {K K' : Kernel.Table} (h : Covers t K)
    (hsub : ∀ fd, (K' fd).isSome → (K fd).isSome) :
    Covers (fdTableRemoveCloexec t) K' ↔
      ∀ fd entry, t.lookup fd = some entry → entry.cloexec = true → K' fd = none := by
  constructor
  · intro hcov fd entry hentry hflag
    by_contra hopen
    have hsome := hcov fd (Option.isSome_iff_ne_none.mpr hopen)
    rw [lookup_fdTableRemoveCloexec, hentry] at hsome
    simp [Option.filter, hflag] at hsome
  · intro hclosed fd hfd
    obtain ⟨entry, hentry⟩ := Option.isSome_iff_exists.mp (h fd (hsub fd hfd))
    rw [lookup_fdTableRemoveCloexec, hentry]
    cases hflag : entry.cloexec with
    | false => simp [Option.filter, hflag]
    | true =>
        rw [hclosed fd entry hentry hflag] at hfd
        cases hfd

/-- **One completed syscall on the contents of the table**, `execve` included. -/
theorem Completed.contents_covers_iff {a : Step} {t t' : FdTable} {K : Kernel.Table}
    (h : Covers t K) (hK : KernelAllows K a) (ht' : a.1.contents t = .ok t') :
    Covers t' a.2 ↔ a.1.KeepsCover t K a.2 := by
  unfold contents at ht'
  split_ifs at ht' with hexec
  · obtain rfl := Except.ok.inj ht'
    have hpeek : a.1.ArrayPeeked := by
      rw [ArrayPeeked, hexec]
      trivial
    rw [covers_removeCloexec_iff h (hK.execve hexec)]
    refine ⟨fun hclosed => ⟨Or.inl hpeek, fun _ => hclosed, ?_⟩, fun hkeep => hkeep.2.1 hexec⟩
    intro _ fd hnone hsome
    have hopen := hK.execve hexec fd hsome
    rw [hnone] at hopen
    cases hopen
  · exact tableEffect_covers_iff h hK hexec ht'

/-- The entry of an open descriptor is not missing. -/
theorem Completed.tableEffect_ne_nullDereference {c : Completed} {t : FdTable}
    (hkind : c.DuplicatesOrFlags) (hentry : (t.lookup (c.arg .RDI)).isSome) :
    c.tableEffect t ≠ .error .nullDereference := by
  obtain ⟨entry, hentry⟩ := Option.isSome_iff_exists.mp hentry
  have hdup : ∀ new cloexec slave,
      fdTableInsertDup (c.arg .RDI) new cloexec slave t ≠ .error .nullDereference := by
    intro new cloexec slave
    unfold fdTableInsertDup
    rw [hentry]
    simp only
    split_ifs <;> simp
  have hset : ∀ cloexec,
      fdTableSetCloexec (c.arg .RDI) cloexec t ≠ .error .nullDereference := by
    intro cloexec
    rw [fdTableSetCloexec_of_lookup hentry]
    simp
  unfold DuplicatesOrFlags at hkind
  unfold tableEffect
  cases hsc : sysno c.sc <;> simp only [hsc] at hkind ⊢
  case SYS_dup | SYS_dup2 | SYS_dup3 =>
    split_ifs
    · exact hdup _ _ _
    · simp
  case SYS_fcntl =>
    split_ifs
    · exact hdup _ _ _
    · exact hdup _ _ _
    · exact hset _
    · simp
    · simp
  case SYS_ioctl =>
    rw [if_pos hkind]
    exact hdup _ _ _

/-- **No missing entry is ever dereferenced:** whichever duplicating or
flag-setting call now succeeds on an open descriptor, its entry is found. -/
def NoMissing (p : Tracer × Kernel.Table) : Prop :=
  ∀ c : Completed, c.Timed → c.DuplicatesOrFlags → c.Succeeds → Present p.2 (c.arg .RDI) →
    handleCompleted p.1 c ≠ .error .nullDereference

/-- A duplicating or flag-setting call is handled on the table. -/
theorem handleCompleted_error_iff {s : Tracer} {t : FdTable} {c : Completed} (hs : s.Holds t)
    (hc : c.Timed) (hkind : c.DuplicatesOrFlags) (e : Abort) :
    handleCompleted s c = .error e ↔ c.tableEffect t = .error e := by
  have hr : c.Readable := by
    unfold Completed.DuplicatesOrFlags at hkind
    unfold Completed.Readable
    cases hsc : sysno c.sc <;> simp only [hsc] at hkind ⊢
  have hexec : sysno c.sc ≠ .SYS_execve := by
    intro hsc
    rw [Completed.DuplicatesOrFlags, hsc] at hkind
    exact hkind
  obtain ⟨tmps, fileStat, syscalls, -, hstep⟩ := handleCompleted_eq hs hc hr hexec
  rw [hstep]
  cases c.tableEffect t with
  | error e' => simp [Except.map]
  | ok t' => exact iff_of_false (by simp [Except.map]) (by simp)

/-- `fcntl(fd, F_SETFD, 0)`, which succeeds. -/
def clearsCloexec (fd : CInt) : Completed :=
  .ofRegs 72 (fd.setWidth 64) 2 0 0 0 fun _ => none

theorem clearsCloexec_arg (fd : CInt) : (clearsCloexec fd).arg .RDI = fd := by
  change (fd.setWidth 64).setWidth 32 = fd
  simp

theorem clearsCloexec_duplicatesOrFlags (fd : CInt) : (clearsCloexec fd).DuplicatesOrFlags := by
  change F_SETFD ∈ [F_DUPFD, F_DUPFD_CLOEXEC, F_SETFD]
  decide

theorem clearsCloexec_succeeds (fd : CInt) : (clearsCloexec fd).Succeeds := by
  change 0 ≤ (0 : CLong).toInt ∧ (0 : CLong).toInt < 2 ^ 31
  decide

/-- **Nothing is missing exactly when every open descriptor has an entry:** an
`F_SETFD` on a descriptor without entry would abort. -/
theorem noMissing_iff_covers {p : Tracer × Kernel.Table} {t : FdTable} (hs : p.1.Holds t)
    (hneg : NonNegative p.2) : NoMissing p ↔ Covers t p.2 := by
  constructor
  · intro h fd hfd
    by_contra hno
    have heff : (clearsCloexec fd).tableEffect t = .error .nullDereference := by
      change fdTableSetCloexec ((clearsCloexec fd).arg .RDI) _ t = _
      rw [clearsCloexec_arg,
        fdTableSetCloexec_of_lookup_none (Option.not_isSome_iff_eq_none.mp hno)]
    have hkind := clearsCloexec_duplicatesOrFlags fd
    have hopen : Present p.2 ((clearsCloexec fd).arg .RDI) := by
      rw [clearsCloexec_arg]
      exact ⟨hneg fd hfd, hfd⟩
    exact h (clearsCloexec fd) ⟨rfl, rfl⟩ hkind (clearsCloexec_succeeds fd) hopen
      ((handleCompleted_error_iff hs ⟨rfl, rfl⟩ hkind _).mpr heff)
  · intro h c hc hkind _ hopen herr
    rw [handleCompleted_error_iff hs hc hkind] at herr
    exact Completed.tableEffect_ne_nullDereference hkind (h _ hopen.2) herr

/-- Every open descriptor has an entry in the live table of the tracee. -/
def Covered (p : Tracer × Kernel.Table) : Prop := ∃ t, p.1.Alive t ∧ Covers t p.2

/-- The call keeps every open descriptor covered. -/
def KeepsCovered (p : Tracer × Kernel.Table) (a : Step) : Prop :=
  ∀ t, p.1.Holds t → a.1.KeepsCover t p.2 a.2

/-- **A step from a state in which every open descriptor has an entry** leads to
such a state exactly if the call keeps the cover. -/
theorem followedStep_covered_iff {p : Tracer × Kernel.Table} {a : Step} (h : Covered p)
    (hK : KernelAllows p.2 a) :
    (∀ p', followedStep p a = .ok p' → Covered p') ↔ KeepsCovered p a := by
  obtain ⟨t, hs, hcov⟩ := h
  have honly : KeepsCovered p a ↔ a.1.KeepsCover t p.2 a.2 :=
    ⟨fun h => h t hs.1, fun h t' hs' => hs.1.unique hs' ▸ h⟩
  obtain ⟨f, hstep, hf⟩ := handleCompleted_contents hs hK.timed hK.readable
  rw [honly]
  cases hcont : a.1.contents t with
  | error e =>
      refine iff_of_true (fun p' hp' => ?_) ?_
      · rw [followedStep, hstep, hcont] at hp'
        cases hp'
      · unfold Completed.contents at hcont
        split_ifs at hcont with hexec
        exact Completed.keepsCover_of_error hcont hexec _ _
  | ok t' =>
      have hfollowed : followedStep p a = .ok (f t', a.2) := by
        rw [followedStep, hstep, hcont]
        rfl
      rw [← Completed.contents_covers_iff hcov hK hcont]
      constructor
      · intro h
        obtain ⟨t'', hs'', hcov'⟩ := h _ hfollowed
        rwa [(hf t' hcont).1.unique hs''.1]
      · intro hcov' p' hp'
        obtain rfl := Except.ok.inj (hfollowed.symm.trans hp')
        exact ⟨t', hf t' hcont, hcov'⟩

/-- A step that does not abort leaves the tracee with a live table. -/
theorem followedStep_alive {p p' : Tracer × Kernel.Table} {a : Step} {t : FdTable}
    (hs : p.1.Alive t) (hK : KernelAllows p.2 a) (hstep : followedStep p a = .ok p') :
    (∃ t', p'.1.Alive t') ∧ NonNegative p'.2 := by
  obtain ⟨f, heq, hf⟩ := handleCompleted_contents hs hK.timed hK.readable
  cases hcont : a.1.contents t with
  | error e =>
      rw [followedStep, heq, hcont] at hstep
      cases hstep
  | ok t' =>
      rw [followedStep, heq, hcont] at hstep
      obtain rfl := Except.ok.inj hstep
      exact ⟨⟨t', hf t' hcont⟩, hK.numbers⟩

/-- **No missing entry is dereferenced exactly as long as every open descriptor is
followed.**  Over every run of a tracee that may use any syscalls, with a table that
no other tracee changes, no duplicating or flag-setting call that could come next and
succeed in any state reached dereferences a missing entry, if and only if every
descriptor that was open at the start has an entry and every call of the run keeps the
open descriptors covered. -/
theorem no_missing_entry {p : Tracer × Kernel.Table} {t : FdTable} {l : List Step}
    (hs : p.1.Alive t) (hneg : NonNegative p.2)
    (hscope : Along followedStep (fun p a => KernelAllows p.2 a) p l) :
    Always followedStep NoMissing p l ↔ Covers t p.2 ∧ Along followedStep KeepsCovered p l := by
  have halive : Always followedStep (fun p => (∃ t, p.1.Alive t) ∧ NonNegative p.2) p l :=
    hscope.always (fun p a p' hI hK hstep => followedStep_alive hI.1.choose_spec hK hstep)
      ⟨⟨t, hs⟩, hneg⟩
  have hiff : Always followedStep NoMissing p l ↔ Always followedStep Covered p l := by
    constructor
    · intro h
      refine (h.and halive).mono ?_
      rintro p ⟨hno, ⟨t, hs⟩, hneg⟩
      exact ⟨t, hs, (noMissing_iff_covers hs.1 hneg).mp hno⟩
    · intro h
      refine (h.and halive).mono ?_
      rintro p ⟨⟨t, hs, hcov⟩, -, hneg⟩
      exact (noMissing_iff_covers hs.1 hneg).mpr hcov
  rw [hiff]
  have hstart : Covered p ↔ Covers t p.2 := by
    constructor
    · rintro ⟨t', hs', hcov⟩
      rwa [hs.1.unique hs'.1]
    · intro hcov
      exact ⟨t, hs, hcov⟩
  constructor
  · intro h
    exact ⟨hstart.mp h.head, (invariant_iff_along (fun _ _ => followedStep_covered_iff) hscope
      h.head).mp h⟩
  · rintro ⟨hcov, h⟩
    exact (invariant_iff_along (fun _ _ => followedStep_covered_iff) hscope
      (hstart.mpr hcov)).mpr h

/-- The table covers the descriptors that it describes. -/
theorem covers_ofFdTable (t : FdTable) : Covers t (ofFdTable t) := by
  intro fd hfd
  unfold ofFdTable at hfd
  rwa [Option.isSome_map] at hfd

/-- `dup` of the standard output to descriptor 3. -/
def dupStep : Step :=
  (dupReturns 1 3, Function.update (ofFdTable fdTableCreate) 3 (some ⟨cstr "stdout", false⟩))

theorem dupStep_allowed : KernelAllows (ofFdTable fdTableCreate) dupStep where
  timed := ⟨rfl, rfl⟩
  readable := trivial
  numbers := NonNegative.fdTableCreate.update (by decide) _
  pair := trivial
  followed _ := by
    change _ = Function.update (ofFdTable fdTableCreate) 3 _
    exact congrArg (Function.update (ofFdTable fdTableCreate) 3) (by decide)
  source _ _ := ⟨by decide, by decide, by decide⟩
  execve h := by cases h

/-- A tracee that starts with the standard streams and duplicates one of them. -/
theorem no_missing_entry_dup :
    Always followedStep NoMissing (Tracer.ofTable fdTableCreate, ofFdTable fdTableCreate)
      [dupStep] := by
  have hscope : Along followedStep (fun p a => KernelAllows p.2 a)
      (Tracer.ofTable fdTableCreate, ofFdTable fdTableCreate) [dupStep] :=
    ⟨dupStep_allowed, fun _ _ => trivial⟩
  have hexec : ¬sysno dupStep.1.sc = .SYS_execve := by decide
  exact (no_missing_entry (Tracer.ofTable_alive _) NonNegative.fdTableCreate hscope).mpr
    ⟨covers_ofFdTable _, fun _ _ => ⟨Or.inl trivial, fun h => absurd h hexec,
      fun h => absurd trivial h⟩, fun _ _ => trivial⟩

/-- `creat`, which the handlers do not follow, opens descriptor 3. -/
def creatStep : Step :=
  (.ofRegs 85 0x1000 0 0 0 3 fun _ => none,
    Function.update (ofFdTable fdTableCreate) 3 (some ⟨cstr "log", false⟩))

theorem creatStep_allowed : KernelAllows (ofFdTable fdTableCreate) creatStep where
  timed := ⟨rfl, rfl⟩
  readable := trivial
  numbers := NonNegative.fdTableCreate.update (by decide) _
  pair := trivial
  followed h := h.elim
  source h := h.elim
  execve h := by cases h

/-- **After a `creat`**, a call on its descriptor dereferences a missing entry. -/
theorem missing_entry_creat :
    Along followedStep (fun p a => KernelAllows p.2 a)
      (Tracer.ofTable fdTableCreate, ofFdTable fdTableCreate) [creatStep] ∧
    ¬Always followedStep NoMissing (Tracer.ofTable fdTableCreate, ofFdTable fdTableCreate)
      [creatStep] := by
  refine ⟨⟨creatStep_allowed, fun _ _ => trivial⟩, fun h => ?_⟩
  obtain ⟨f, hstep, hf⟩ := handleCompleted_contents (c := creatStep.1)
    (Tracer.ofTable_alive fdTableCreate) ⟨rfl, rfl⟩ trivial
  have hfollowed : followedStep (Tracer.ofTable fdTableCreate, ofFdTable fdTableCreate) creatStep =
      .ok (f fdTableCreate, creatStep.2) := by
    rw [followedStep, hstep]
    rfl
  have hno := h.2 _ hfollowed
  have hcov := (noMissing_iff_covers (hf fdTableCreate rfl).1 creatStep_allowed.numbers).mp hno
  have hopen : (creatStep.2 3).isSome := by decide
  have hthree := hcov 3 hopen
  exact absurd hthree (by decide)

end Iotrace
