/-
# One tracee next to the kernel

A tracer thread with a table of its own and the kernel's table are followed
together over the completed syscalls of the tracee (`tracedStep`).  `Agrees v w`
says that the two tables have the same descriptors and that what `v` sees of an
entry is what `w` sees of the descriptor: with the names for `v` and `w` this is
name attribution (`Iotrace.Attribution`), with the close-on-exec flags it is
`Iotrace.CloseOnExec`.  The lemmas on `Agrees` are one for each kind of effect.

`InScope` is the set of calls that the two refinements are about: the calls that
create, close, duplicate or flag descriptors, with what the kernel promises about
their results.
-/

import Iotrace.Kernel
import Iotrace.Library.Runs

namespace Iotrace

open Kernel

/-- A completed syscall, handled by the tracer and done by the kernel. -/
def tracedStep (p : Tracer × Kernel.Table) (c : Completed) :
    Except Abort (Tracer × Kernel.Table) := do
  let s ← handleCompleted p.1 c
  .ok (s, c.kernelEffect.apply p.2)

/-- The kernel has the descriptor open. -/
def Present (K : Kernel.Table) (fd : CInt) : Prop := 0 ≤ fd.toInt ∧ (K fd).isSome

/-- A result that is no error is an `int`. -/
def Completed.ReturnsInt (c : Completed) : Prop := c.rax.toInt < 2 ^ 31

/-- The calls of the refinement, in a kernel with the table `K`.  The clock and
the paths of opens can be read; a descriptor that the kernel returns or stores is
a non-negative `int`; duplicating, flag-setting and peer calls succeed on an open
descriptor, and `dup3` on two different ones. -/
def Completed.InScope (c : Completed) (K : Kernel.Table) : Prop :=
  c.Timed ∧ c.Readable ∧
  match sysno c.sc with
  | .SYS_open | .SYS_openat | .SYS_socket | .SYS_eventfd | .SYS_eventfd2 | .SYS_epoll_create
  | .SYS_epoll_create1 | .SYS_accept | .SYS_accept4 => c.ReturnsInt
  | .SYS_pipe | .SYS_pipe2 => c.rax = 0 → c.Stores (c.call.user .RDI)
  | .SYS_socketpair => c.rax = 0 → c.Stores (c.call.user .R10)
  | .SYS_dup | .SYS_dup2 => c.Succeeds ∧ Present K (c.arg .RDI)
  | .SYS_dup3 => c.Succeeds ∧ Present K (c.arg .RDI) ∧ c.arg .RDI ≠ toCInt c.rax
  | .SYS_fcntl =>
    c.arg .RSI ∈ [F_DUPFD, F_DUPFD_CLOEXEC, F_SETFD] ∧ c.Succeeds ∧ Present K (c.arg .RDI)
  | .SYS_ioctl => c.arg .RSI = TIOCGPTPEER ∧ c.Succeeds ∧ Present K (c.arg .RDI)
  | .SYS_execve | .other => False
  | _ => True

/-- `PTRACE_PEEKDATA` can read the second `int` of the array that a successful
`pipe`, `pipe2` or `socketpair` fills. -/
def Completed.ArrayPeeked (c : Completed) : Prop :=
  match sysno c.sc with
  | .SYS_pipe | .SYS_pipe2 => c.rax = 0 → c.PeeksSecond (c.call.user .RDI)
  | .SYS_socketpair => c.rax = 0 → c.PeeksSecond (c.call.user .R10)
  | _ => True

/-- The flag of every new descriptor is the kernel's, up to `flags`: the handlers
enter `false` for `dup3`, `socketpair` and `TIOCGPTPEER`, whatever flags the call
asks for. -/
def Completed.FlagSeen (flags : Bool → Bool → Prop) (c : Completed) : Prop :=
  match sysno c.sc with
  | .SYS_dup3 => flags false (hasBit (c.arg .RDX) O_CLOEXEC)
  | .SYS_socketpair => c.rax = 0 → flags false (hasBit (c.arg .RSI) SOCK_CLOEXEC)
  | .SYS_ioctl => flags false (hasBit (c.arg .RDX) O_CLOEXEC)
  | _ => True

/-- **An array that can be read** is read as the kernel has filled it. -/
theorem Completed.Stores.peeked {c : Completed} {ptr : CLong} (hst : c.Stores ptr)
    (hpeek : c.PeeksSecond ptr) :
    ∃ fdA fdB, intAt c.ret.mem ptr = some fdA ∧ intAt c.ret.mem (ptr + 4) = some fdB ∧
      toCInt (peekDataUnchecked c.ret.mem ptr) = fdA ∧
      toCInt (peekDataUnchecked c.ret.mem (ptr + 4)) = fdB := by
  obtain ⟨fdA, fdB, hfdA, hfdB, -, -⟩ := hst
  obtain ⟨dataA, hdataA⟩ := peekData_of_intAt hfdA hfdB
  obtain ⟨dataB, hdataB⟩ := Option.isSome_iff_exists.mp hpeek
  exact ⟨fdA, fdB, hfdA, hfdB, toCInt_peekDataUnchecked hdataA hfdA,
    toCInt_peekDataUnchecked hdataB hfdB⟩

/-- The two tables have the same descriptors, and `v` of an entry is `w` of the
descriptor. -/
def Agrees {β : Type} (v : FdTableEntry → β) (w : Descriptor → β) (t : FdTable)
    (K : Kernel.Table) : Prop :=
  ∀ fd, (t.lookup fd).map v = (K fd).map w

namespace Agrees

variable {β : Type} {v : FdTableEntry → β} {w : Descriptor → β} {t : FdTable}
  {K : Kernel.Table}

theorem insert (h : Agrees v w t K) (fd : CInt) {name file : CString} {cloexec cloexec' : Bool}
    (hvw : v ⟨name, cloexec⟩ = w ⟨file, cloexec'⟩) :
    Agrees v w (fdTableInsert t fd name cloexec)
      (Function.update K fd (some ⟨file, cloexec'⟩)) := by
  intro x
  rw [lookup_fdTableInsert, Function.update_apply]
  split_ifs
  · exact congrArg some hvw
  · exact h x

theorem remove (h : Agrees v w t K) (fd : CInt) :
    Agrees v w (fdTableRemove t fd) (Function.update K fd none) := by
  intro x
  rw [lookup_fdTableRemove, Function.update_apply]
  split_ifs
  · rfl
  · exact h x

theorem enterFd (h : Agrees v w t K) (c : Completed) {name file : CString}
    {cloexec cloexec' : Bool} (hvw : v ⟨name, cloexec⟩ = w ⟨file, cloexec'⟩) :
    Agrees v w (enterFd t c.rax name cloexec) ((c.opensOf file cloexec').apply K) := by
  unfold Iotrace.enterFd Completed.opensOf
  split_ifs
  · exact h.insert _ hvw
  · exact h

/-- A pair whose array can be read is entered under the numbers that the kernel stored. -/
theorem enterPair (h : Agrees v w t K) {c : Completed} {ptr : CLong}
    (hst : c.rax = 0 → c.Stores ptr)
    (hpeek : c.rax = 0 → c.PeeksSecond ptr) {nameA nameB fileA fileB : CString}
    {cloexec cloexec' : Bool} (hA : v ⟨nameA, cloexec⟩ = w ⟨fileA, cloexec'⟩)
    (hB : v ⟨nameB, cloexec⟩ = w ⟨fileB, cloexec'⟩) :
    Agrees v w (enterPair t c ptr nameA nameB cloexec)
      ((c.opensPairOf ptr fileA fileB cloexec').apply K) := by
  unfold Iotrace.enterPair Completed.opensPairOf
  split_ifs with hrax
  · obtain ⟨fdA, fdB, hfdA, hfdB, hvalA, hvalB⟩ := (hst hrax).peeked (hpeek hrax)
    rw [hvalA, hvalB, hfdA, hfdB]
    exact (h.insert fdA hA).insert fdB hB
  · exact h

/-- Every entry has its descriptor. -/
theorem entry (h : Agrees v w t K) {fd : CInt} (hfd : (K fd).isSome) :
    ∃ entry d, t.lookup fd = some entry ∧ K fd = some d ∧ v entry = w d := by
  obtain ⟨d, hd⟩ := Option.isSome_iff_exists.mp hfd
  have hv := h fd
  rw [hd, Option.map_some, Option.map_eq_some_iff] at hv
  obtain ⟨entry, hentry, hvw⟩ := hv
  exact ⟨entry, d, hentry, hd, hvw⟩

/-- A duplicate of an open descriptor. -/
theorem insertDup (h : Agrees v w t K) {old : CInt} (hold : (K old).isSome) (new : CInt)
    {cloexec cloexec' : Bool} (hvw : ∀ (entry : FdTableEntry) (d : Descriptor),
      v entry = w d → v ⟨entry.filename, cloexec⟩ = w ⟨d.file, cloexec'⟩) :
    ∃ t', fdTableInsertDup old new cloexec false t = .ok t' ∧
      Agrees v w t' ((Effect.dups old new cloexec').apply K) := by
  obtain ⟨entry, d, hentry, hd, heq⟩ := h.entry hold
  refine ⟨_, fdTableInsertDup_of_lookup hentry new cloexec, ?_⟩
  rw [Effect.apply, hd]
  exact h.insert new (hvw entry d heq)

/-- The peer of an open descriptor. -/
theorem insertPeer (h : Agrees v w t K) (hfits : t.Fits) {master : CInt}
    (hmaster : (K master).isSome) (new : CInt) {cloexec cloexec' : Bool}
    (hvw : ∀ (entry : FdTableEntry) (d : Descriptor), v entry = w d →
      v ⟨slaveName entry.filename, cloexec⟩ = w ⟨slaveName d.file, cloexec'⟩) :
    ∃ t', fdTableInsertDup master new cloexec true t = .ok t' ∧
      Agrees v w t' ((Effect.peers master new cloexec').apply K) := by
  obtain ⟨entry, d, hentry, hd, heq⟩ := h.entry hmaster
  refine ⟨_, fdTableInsertDup_slave_of_lookup hentry (hfits _ _ hentry) new cloexec, ?_⟩
  rw [Effect.apply, hd]
  exact h.insert new (hvw entry d heq)

/-- A new flag for an open descriptor. -/
theorem setCloexec (h : Agrees v w t K) {fd : CInt} (hfd : (K fd).isSome) (cloexec : Bool)
    (hvw : ∀ (entry : FdTableEntry) (d : Descriptor), v entry = w d →
      v { entry with cloexec := cloexec } = w { d with cloexec := cloexec }) :
    ∃ t', fdTableSetCloexec fd cloexec t = .ok t' ∧
      Agrees v w t' ((Effect.setsCloexec fd cloexec).apply K) := by
  obtain ⟨entry, d, hentry, hd, heq⟩ := h.entry hfd
  refine ⟨_, fdTableSetCloexec_of_lookup hentry cloexec, ?_⟩
  rw [Effect.apply, hd]
  exact h.insert fd (hvw entry d heq)

/-- Tables that agree in some respect have the same descriptors. -/
theorem keys (h : Agrees v w t K) : Agrees (fun _ => ()) (fun _ => ()) t K := by
  intro fd
  have := congrArg (Option.map fun _ => ()) (h fd)
  simpa [Option.map_map, Function.comp_def] using this

end Agrees

/-- What `v` and `w` see is kept by the handlers: it is determined by the name
and the flag, where flags that `flags` relates count as the same. -/
structure View {β : Type} (v : FdTableEntry → β) (w : Descriptor → β)
    (flags : Bool → Bool → Prop) : Prop where
  refl : ∀ b, flags b b
  fresh : ∀ (name : CString) {cl cl' : Bool}, flags cl cl' → v ⟨name, cl⟩ = w ⟨name, cl'⟩
  derived : ∀ (f : CString → CString) {entry : FdTableEntry} {d : Descriptor} {cl cl' : Bool},
    v entry = w d → flags cl cl' → v ⟨f entry.filename, cl⟩ = w ⟨f d.file, cl'⟩

/-- The names, whatever the flags. -/
theorem View.names : View FdTableEntry.filename Descriptor.file fun _ _ => True where
  refl _ := trivial
  fresh _ _ _ _ := rfl
  derived f _ _ _ _ h _ := congrArg f h

/-- The flags, whatever the names. -/
theorem View.flags : View FdTableEntry.cloexec Descriptor.cloexec Eq where
  refl _ := rfl
  fresh _ _ _ h := h
  derived _ _ _ _ _ _ h := h

/-- The descriptors alone. -/
theorem View.keys : View (fun _ => ()) (fun _ => ()) fun _ _ => True where
  refl _ := trivial
  fresh _ _ _ _ := rfl
  derived _ _ _ _ _ _ _ := rfl

/-- **The handlers simulate the kernel.**  A call in scope whose array can be
read and whose flags are seen keeps the two tables in agreement. -/
theorem Completed.tableEffect_agrees {β : Type} {v : FdTableEntry → β} {w : Descriptor → β}
    {flags : Bool → Bool → Prop} (hview : View v w flags) {c : Completed} {t : FdTable}
    {K : Kernel.Table} (h : Agrees v w t K) (hfits : t.Fits) (hscope : c.InScope K)
    (hpeek : c.ArrayPeeked) (hseen : c.FlagSeen flags) :
    ∃ t', c.tableEffect t = .ok t' ∧ Agrees v w t' (c.kernelEffect.apply K) := by
  have hfd : ∀ name cl, Agrees v w (enterFd t c.rax name cl) ((c.opensOf name cl).apply K) :=
    fun name cl => h.enterFd c (hview.fresh name (hview.refl cl))
  obtain ⟨-, -, hscope⟩ := hscope
  unfold ArrayPeeked at hpeek
  unfold FlagSeen at hseen
  unfold tableEffect kernelEffect
  cases hsc : sysno c.sc <;> simp only [hsc] at hscope hpeek hseen ⊢
  case SYS_open | SYS_openat | SYS_socket | SYS_eventfd | SYS_eventfd2 | SYS_epoll_create
      | SYS_epoll_create1 | SYS_accept | SYS_accept4 =>
    exact ⟨_, rfl, hfd _ _⟩
  case SYS_close => exact ⟨_, rfl, h.remove _⟩
  case SYS_pipe | SYS_pipe2 =>
    exact ⟨_, rfl, h.enterPair hscope hpeek (hview.fresh _ (hview.refl _))
      (hview.fresh _ (hview.refl _))⟩
  case SYS_socketpair =>
    by_cases hrax : c.rax = 0
    · exact ⟨_, rfl, h.enterPair hscope hpeek (hview.fresh _ (hseen hrax))
        (hview.fresh _ (hseen hrax))⟩
    · refine ⟨_, rfl, ?_⟩
      rw [enterPair, if_neg hrax, opensPairOf, if_neg hrax]
      exact h
  case SYS_dup | SYS_dup2 =>
    obtain ⟨⟨hpos, -⟩, hold, hopen⟩ := hscope
    unfold dupsOf
    by_cases hne : c.arg .RDI ≠ toCInt c.rax
    · rw [if_pos ⟨hold, hne⟩, if_pos ⟨hpos, hne⟩]
      exact h.insertDup hopen _ fun _ _ he => hview.derived id he (hview.refl _)
    · rw [if_neg fun h' => hne h'.2, if_neg fun h' => hne h'.2]
      exact ⟨t, rfl, h⟩
  case SYS_dup3 =>
    obtain ⟨⟨hpos, -⟩, ⟨hold, hopen⟩, hne⟩ := hscope
    rw [dupsOf, if_pos ⟨hold, hne⟩, if_pos ⟨hpos, hne⟩]
    exact h.insertDup hopen _ fun _ _ he => hview.derived id he hseen
  case SYS_fcntl =>
    obtain ⟨hcmd, ⟨hpos, hint⟩, -, hopen⟩ := hscope
    rw [if_pos (toCInt_ne_neg_one hpos hint), if_pos hpos]
    split_ifs with h₁ h₂ h₃
    · exact h.insertDup hopen _ fun _ _ he => hview.derived id he (hview.refl _)
    · exact h.insertDup hopen _ fun _ _ he => hview.derived id he (hview.refl _)
    · exact h.setCloexec hopen _ fun _ _ he => hview.derived id he (hview.refl _)
    · exact absurd hcmd (by simp [h₁, h₂, h₃])
  case SYS_ioctl =>
    obtain ⟨hcmd, ⟨hpos, -⟩, -, hopen⟩ := hscope
    rw [if_pos hcmd, if_pos ⟨hpos, hcmd⟩]
    exact h.insertPeer hfits hopen _ fun _ _ he => hview.derived slaveName he hseen
  all_goals exact ⟨t, rfl, h⟩

/-- A call whose array cannot be read does not abort. -/
theorem Completed.tableEffect_ok_of_not_peeked {c : Completed} (hp : ¬c.ArrayPeeked)
    (t : FdTable) : ∃ t', c.tableEffect t = .ok t' := by
  unfold ArrayPeeked at hp
  unfold tableEffect
  split at hp
  case h_1 hsc | h_2 hsc | h_3 hsc =>
    simp only [hsc]
    exact ⟨_, rfl⟩
  case h_4 => exact absurd trivial hp

/-- **No call in scope aborts**, whether its array can be read or not. -/
theorem Completed.tableEffect_ok {β : Type} {v : FdTableEntry → β} {w : Descriptor → β}
    {c : Completed} {t : FdTable} {K : Kernel.Table} (h : Agrees v w t K) (hfits : t.Fits)
    (hscope : c.InScope K) : ∃ t', c.tableEffect t = .ok t' := by
  by_cases hpeek : c.ArrayPeeked
  · have hseen : c.FlagSeen fun _ _ => True := by
      unfold FlagSeen
      split <;> simp
    exact (tableEffect_agrees View.keys h.keys hfits hscope hpeek hseen).imp fun _ h' => h'.1
  · exact tableEffect_ok_of_not_peeked hpeek t

/-! ### Arrays that cannot be read -/

/-- Every descriptor has a number that is not negative. -/
def Kernel.NonNegative (K : Kernel.Table) : Prop := ∀ fd, (K fd).isSome → 0 ≤ fd.toInt

/-- The standard streams have numbers that are not negative. -/
theorem Kernel.NonNegative.fdTableCreate : NonNegative (ofFdTable fdTableCreate) := by
  intro fd hfd
  unfold ofFdTable Iotrace.fdTableCreate at hfd
  simp only [lookup_fdTableInsert] at hfd
  split_ifs at hfd with h₂ h₁ h₀
  · subst h₂; decide
  · subst h₁; decide
  · subst h₀; decide
  · simp at hfd

theorem Kernel.NonNegative.update {K : Kernel.Table} (h : NonNegative K) {fd : CInt}
    (hfd : 0 ≤ fd.toInt) (d : Option Descriptor) : NonNegative (Function.update K fd d) := by
  intro x hx
  rw [Function.update_apply] at hx
  split_ifs at hx with heq
  · exact heq ▸ hfd
  · exact h x hx

theorem Kernel.NonNegative.update_none {K : Kernel.Table} (h : NonNegative K) (fd : CInt) :
    NonNegative (Function.update K fd none) := by
  intro x hx
  rw [Function.update_apply] at hx
  split_ifs at hx
  · cases hx
  · exact h x hx

theorem Kernel.NonNegative.opensOf {K : Kernel.Table} (h : NonNegative K) {c : Completed}
    (hint : c.ReturnsInt) (file : CString) (cloexec : Bool) :
    NonNegative ((c.opensOf file cloexec).apply K) := by
  unfold Completed.opensOf
  split_ifs with hrax
  · exact h.update (by rw [toCInt_toInt hrax hint]; exact hrax) _
  · exact h

theorem Kernel.NonNegative.opensPairOf {K : Kernel.Table} (h : NonNegative K) {c : Completed}
    {ptr : CLong} (hst : c.rax = 0 → c.Stores ptr) (fileA fileB : CString) (cloexec : Bool) :
    NonNegative ((c.opensPairOf ptr fileA fileB cloexec).apply K) := by
  unfold Completed.opensPairOf
  split_ifs with hrax
  · obtain ⟨fdA, fdB, hfdA, hfdB, hposA, hposB⟩ := hst hrax
    rw [hfdA, hfdB]
    exact (h.update hposA _).update hposB _
  · exact h

/-- The kernel never hands out a negative number. -/
theorem Completed.kernelEffect_nonNegative {c : Completed} {K : Kernel.Table}
    (h : NonNegative K) (hscope : c.InScope K) : NonNegative (c.kernelEffect.apply K) := by
  have hnew : c.Succeeds → ∀ d, NonNegative (Function.update K (toCInt c.rax) d) :=
    fun hs d => h.update (by rw [toCInt_toInt hs.1 hs.2]; exact hs.1) d
  obtain ⟨-, -, hscope⟩ := hscope
  unfold kernelEffect
  cases hsc : sysno c.sc <;> simp only [hsc] at hscope ⊢
  case SYS_open | SYS_openat | SYS_socket | SYS_eventfd | SYS_eventfd2 | SYS_epoll_create
      | SYS_epoll_create1 | SYS_accept | SYS_accept4 =>
    exact h.opensOf hscope _ _
  case SYS_close => exact h.update_none _
  case SYS_pipe | SYS_pipe2 | SYS_socketpair => exact h.opensPairOf hscope _ _ _
  case SYS_dup | SYS_dup2 | SYS_dup3 =>
    unfold dupsOf
    split_ifs
    · exact hnew hscope.1 _
    · exact h
  case SYS_fcntl =>
    obtain ⟨-, hsucc, hopen⟩ := hscope
    split_ifs
    · exact hnew hsucc _
    · exact hnew hsucc _
    · exact h.update hopen.1 _
    all_goals exact h
  case SYS_ioctl =>
    split_ifs
    · exact hnew hscope.2.1 _
    · exact h
  all_goals exact h

/-- **An array that cannot be read** makes the handlers enter the number `-1`. -/
theorem Completed.tableEffect_not_peeked {c : Completed} {t t' : FdTable} (hp : ¬c.ArrayPeeked)
    (h : c.tableEffect t = .ok t') : (t'.lookup (-1)).isSome := by
  have hpair : ∀ ptr nameA nameB cloexec, ¬(c.rax = 0 → c.PeeksSecond ptr) →
      ((enterPair t c ptr nameA nameB cloexec).lookup (-1)).isSome := by
    intro ptr nameA nameB cloexec hno
    obtain ⟨hrax, hno⟩ := Classical.not_imp.mp hno
    have hval := toCInt_peekDataUnchecked_none (Option.not_isSome_iff_eq_none.mp hno)
    rw [enterPair, if_pos hrax, hval, lookup_fdTableInsert, if_pos rfl]
    rfl
  unfold ArrayPeeked at hp
  unfold tableEffect at h
  split at hp
  case h_1 hsc | h_2 hsc | h_3 hsc =>
    simp only [hsc] at h
    obtain rfl := Except.ok.inj h
    exact hpair _ _ _ _ hp
  case h_4 => exact absurd trivial hp

/-- The two tables part where an array cannot be read. -/
theorem Completed.not_agrees_of_not_peeked {β : Type} {v : FdTableEntry → β} {w : Descriptor → β}
    {c : Completed} {t t' : FdTable} {K : Kernel.Table} (hneg : NonNegative K)
    (hscope : c.InScope K) (hp : ¬c.ArrayPeeked) (h : c.tableEffect t = .ok t') :
    ¬Agrees v w t' (c.kernelEffect.apply K) := by
  intro hagree
  obtain ⟨entry, hentry⟩ := Option.isSome_iff_exists.mp (tableEffect_not_peeked hp h)
  have hv := hagree (-1)
  rw [hentry, Option.map_some] at hv
  obtain ⟨d, hd, -⟩ := Option.map_eq_some_iff.mp hv.symm
  have hpos := c.kernelEffect_nonNegative hneg hscope (-1) (by rw [hd]; rfl)
  exact absurd hpos (by decide)

/-! ### One step of the tracee -/

theorem Completed.InScope.not_execve {c : Completed} {K : Kernel.Table} (h : c.InScope K) :
    sysno c.sc ≠ .SYS_execve := by
  intro hsc
  have := h.2.2
  rw [hsc] at this
  exact this

/-- **A step of the tracee** is the effect on the contents of the table, next to
the effect on the kernel's. -/
theorem tracedStep_of_tableEffect {p : Tracer × Kernel.Table} {t t' : FdTable} {c : Completed}
    (hs : p.1.Holds t) (hscope : c.InScope p.2) (h : c.tableEffect t = .ok t') :
    ∃ s', tracedStep p c = .ok (s', c.kernelEffect.apply p.2) ∧ s'.Holds t' ∧
      p.1.tmps.SameRefs s'.tmps ∧ s'.heap.counts = p.1.heap.counts := by
  obtain ⟨tmps, fileStat, syscalls, hrefs, hstep⟩ :=
    handleCompleted_eq hs hscope.1 hscope.2.1 hscope.not_execve
  rw [h] at hstep
  refine ⟨_, by rw [tracedStep, hstep]; rfl, hs.setTable t' tmps hrefs fileStat syscalls, hrefs,
    rfl⟩

/-- The record of the tracee refers to a table that agrees with the kernel's. -/
def Refines {β : Type} (v : FdTableEntry → β) (w : Descriptor → β)
    (p : Tracer × Kernel.Table) : Prop :=
  ∃ t, p.1.Holds t ∧ Agrees v w t p.2

/-- The names in the tracee's table fit the buffer. -/
def Tracer.Fits (s : Tracer) : Prop := ∀ t, s.Holds t → t.Fits

/-- No other thread shares the tracee's table. -/
def Tracer.Private (s : Tracer) : Prop := s.heap.counts.cell s.tmps.shareCount = some 1

/-- A record refers to one table. -/
theorem Tracer.Holds.unique {s : Tracer} {t t' : FdTable} (h : s.Holds t) (h' : s.Holds t') :
    t = t' :=
  Option.some.inj (h.table.symm.trans h'.table)

theorem Tracer.Holds.fits {s : Tracer} {t : FdTable} (h : s.Holds t) (hfits : t.Fits) : s.Fits :=
  fun _ h' => h.unique h' ▸ hfits

/-- A table agrees with the descriptors it describes. -/
theorem Refines.start {s : Tracer} {t : FdTable} (hs : s.Holds t) {β : Type}
    {v : FdTableEntry → β} {w : Descriptor → β}
    (hvw : ∀ entry : FdTableEntry, v entry = w ⟨entry.filename, entry.cloexec⟩) :
    Refines v w (s, ofFdTable t) := by
  refine ⟨t, hs, fun fd => ?_⟩
  unfold ofFdTable
  rw [Option.map_map]
  exact congrArg (fun f => (t.lookup fd).map f) (funext hvw)

/-- **One step of the simulation.**  A call in scope does not abort, and the
tracee's table stays its own.  The call keeps the agreement if its array can be read
and its flags are seen; where no descriptor is negative, it ends the agreement if its
array cannot be read. -/
theorem Refines.step {β : Type} {v : FdTableEntry → β} {w : Descriptor → β}
    {flags : Bool → Bool → Prop} (hview : View v w flags) {p : Tracer × Kernel.Table}
    {c : Completed} (h : Refines v w p) (hfits : p.1.Fits) (hscope : c.InScope p.2) :
    ∃ p', tracedStep p c = .ok p' ∧ p'.1.Fits ∧ (p.1.Private → p'.1.Private) ∧
      p'.2 = c.kernelEffect.apply p.2 ∧ (c.ArrayPeeked → c.FlagSeen flags → Refines v w p') ∧
      (NonNegative p.2 → Refines v w p' → c.ArrayPeeked) := by
  obtain ⟨t, hs, hagree⟩ := h
  obtain ⟨t', ht'⟩ := Completed.tableEffect_ok hagree (hfits t hs) hscope
  obtain ⟨s', hstep, hs', hrefs, hcounts⟩ := tracedStep_of_tableEffect hs hscope ht'
  have hprivate : p.1.Private → s'.Private := fun h => by
    rw [Tracer.Private, hrefs.shareCount, hcounts]
    exact h
  refine ⟨_, hstep, hs'.fits (Completed.tableEffect_fits (hfits t hs) ht'), hprivate, rfl, ?_, ?_⟩
  · intro hpeek hseen
    obtain ⟨t'', ht'', hagree'⟩ :=
      Completed.tableEffect_agrees hview hagree (hfits t hs) hscope hpeek hseen
    obtain rfl := Except.ok.inj (ht'.symm.trans ht'')
    exact ⟨t', hs', hagree'⟩
  · rintro hneg ⟨t'', hs'', hagree'⟩
    obtain rfl := hs'.unique hs''
    by_contra hp
    exact Completed.not_agrees_of_not_peeked hneg hscope hp ht' hagree'

end Iotrace
