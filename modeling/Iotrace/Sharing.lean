/-
# Which tracees share a table

The kernel decides at `fork`, `vfork` and `clone` whether the child shares the
descriptor table of its parent, and gives a task a table of its own at `execve`.
The tracer follows it at the events that `wait_for_syscall` sees, with the register
`RDI` as the flags of the new child.

Only `clone` has its flags in that register.  At the event of a `fork` or a `vfork`
it holds whatever the tracee had in it, and if that happens to have the bit
`CLONE_FILES`, the child is taken for one that shares.  `sharing_law` says that the
tracees that share a table for the tracer are those that share one in the kernel,
in every state of a run, exactly if that happens at no event.
-/

import Iotrace.Threads
import Iotrace.WaitLoop
import Iotrace.Library.Runs
import Iotrace.Library.SameClasses

namespace Iotrace

open Runs RefCount FiniteMap Labelling

/-- The syscall that creates a child. -/
inductive Creation where
  | fork | vfork | clone
  deriving DecidableEq

/-- `CLONE_VFORK` of `linux/sched.h`. -/
def CLONE_VFORK : CInt := 0x4000

/-- `CSIGNAL` of `linux/sched.h`: the bits of the flags that hold the exit signal. -/
def CSIGNAL : CInt := 0xff

/-- `SIGCHLD`. -/
def SIGCHLD : CInt := 17

/-- The event that the parent stops with: the kernel reports a `clone` that works
like a `vfork` or a `fork` as one. -/
def Creation.event (kind : Creation) (rdi : CLong) : CInt :=
  match kind with
  | .fork => PTRACE_EVENT_FORK
  | .vfork => PTRACE_EVENT_VFORK
  | .clone =>
    if hasBit (toCInt rdi) CLONE_VFORK then PTRACE_EVENT_VFORK
    else if toCInt rdi &&& CSIGNAL = SIGCHLD then PTRACE_EVENT_FORK
    else PTRACE_EVENT_CLONE

/-- What `wait_for_syscall` learns at the event: the child has been stopped by
`SIGSTOP`. -/
def Creation.wait (kind : Creation) (rdi : CLong) (child : CInt) : Wait where
  status := some ((SIGTRAP ||| kind.event rdi <<< 8) <<< 8 ||| 0x7f)
  rdi := rdi
  newChild := child
  childStatus := some 0x137f

/-- Whether the child shares the descriptor table of its parent: only `clone` has
flags, in its first argument. -/
def Creation.Shares (kind : Creation) (rdi : CLong) : Prop :=
  kind = .clone ∧ hasBit (toCInt rdi) CLONE_FILES = true

instance (kind : Creation) (rdi : CLong) : Decidable (kind.Shares rdi) :=
  inferInstanceAs (Decidable (_ ∧ _))

/-- The tracer's world next to the kernel: the descriptor table of every live
tracee, and the parents of the children that are still to be registered. -/
structure Family where
  world : World
  files : CInt → Option ℕ
  nextFiles : ℕ
  creating : CInt → Option CInt

/-- What happens to the tracees, with what their tracer threads do about it.  An `execve` is
that of a tracee without other threads in its thread group: those the kernel would end, and
it would give the caller the id of the group's leader, which is not modelled. -/
inductive FamilyEvent where
  | create (kind : Creation) (parent child : CInt) (rdi : CLong)
  | register (child : CInt) (block : ThreadTmps)
  | execve (tracee : CInt)
  | exit (tracee : CInt)
  | tracerEnd (tracee : CInt)

namespace Family

/-- One event. -/
def step (s : Family) : FamilyEvent → Except Abort Family
  | .create kind parent child rdi => do
    let world ← match (kind.wait rdi child).threadsAdd 0 with
      | some (newChild, cloneFlags) => threadsAdd s.world newChild parent cloneFlags
      | none => .ok s.world
    .ok {
      world
      files := Function.update s.files child
        (if kind.Shares rdi then s.files parent else some s.nextFiles)
      nextFiles := s.nextFiles + 1
      creating := Function.update s.creating child (some parent) }
  | .register child block => do
    let world ← threadFunc s.world child block
    .ok { s with world, creating := Function.update s.creating child none }
  | .execve tracee => do
    let world ← execveReturn s.world tracee
    .ok { s with
      world
      files := Function.update s.files tracee (some s.nextFiles)
      nextFiles := s.nextFiles + 1 }
  | .exit tracee => .ok { s with files := Function.update s.files tracee none }
  | .tracerEnd tracee => do
    let world ← Iotrace.tracerEnd s.world tracee
    .ok { s with world }

/-- A live tracee that is registered and whose children are registered. -/
structure Proceeds (s : Family) (tracee : CInt) : Prop where
  live : (s.files tracee).isSome
  registered : s.creating tracee = none
  children : ∀ child, s.creating child ≠ some tracee

/-- Tracees act when they and their children are registered; a new child has a
number that no tracee has and that has no record in `thread_tmps_table`, so that the
thread of a tracee that had the number before has ended; a tracer thread ends when its
tracee has exited and no live tracee has the number. -/
def InScope (s : Family) : FamilyEvent → Prop
  | .create _ parent child _ => s.Proceeds parent ∧ 0 ≤ child.toInt ∧ s.files child = none ∧
      s.creating child = none ∧ s.world.process.threadTmpsTable.lookup child = none
  | .register child _ => (s.creating child).isSome
  | .execve tracee | .exit tracee => s.Proceeds tracee
  | .tracerEnd tracee => s.files tracee = none ∧
      ∃ tmps, s.world.process.threadTmpsTable.lookup tracee = some tmps

/-- The register does not say `CLONE_FILES` where it means nothing. -/
def FlagsMeant : FamilyEvent → Prop
  | .create kind _ _ rdi => kind ≠ .clone → hasBit (toCInt rdi) CLONE_FILES = false
  | _ => True

/-- Two live tracees have one table for the tracer if and only if they have one in
the kernel. -/
def SharingLaw (s : Family) : Prop := SameClasses s.world.tableOf s.files

/-- The invariant. -/
structure Sound (s : Family) : Prop where
  world : s.world.Sound
  law : s.SharingLaw
  fresh : ∀ p x, s.files p = some x → x < s.nextFiles
  started : ∀ child, (s.world.started.lookup child).isSome ↔ (s.creating child).isSome
  registered : ∀ p, (s.files p).isSome → s.creating p = none →
    ∃ tmps, s.world.process.threadTmpsTable.lookup p = some tmps
  /-- The parent of a child that is being created is there, and the child is handed
  nothing but its parent's references. -/
  parent : ∀ child parent, s.creating child = some parent → (s.files parent).isSome ∧
    ∃ tmps, s.world.process.threadTmpsTable.lookup parent = some tmps ∧
      ∀ data count, s.world.started.lookup child = some data → data.shareCount = some count →
        count = tmps.shareCount

variable {s : Family}

/-- Where the counter of a record is 1, a child that is handed it is a child of that
tracee. -/
theorem Sound.parent_eq (h : s.Sound) {id : CInt} {tmps : ThreadTmps}
    (hid : s.world.process.threadTmpsTable.lookup id = some tmps)
    (hone : holders ThreadTmps.shareCount s.world.process.threadTmpsTable tmps.shareCount = 1)
    {child : CInt} {data : StartData} (hdata : s.world.started.lookup child = some data)
    (hcount : data.shareCount = some tmps.shareCount) : s.creating child = some id := by
  obtain ⟨parent, hparent⟩ :=
    Option.isSome_iff_exists.mp ((h.started child).mp (by rw [hdata]; rfl))
  obtain ⟨-, tmps', htmps', hsame⟩ := h.parent child parent hparent
  have heq : tmps'.shareCount = tmps.shareCount := (hsame data _ hdata hcount).symm
  rw [hparent, eq_of_holders_eq_one hid hone htmps' heq]

/-- A tracee without children to be registered that is alone with its counter is
alone with its table. -/
theorem Sound.tableOf_ne (h : s.Sound) {id : CInt} {tmps : ThreadTmps}
    (hid : s.world.process.threadTmpsTable.lookup id = some tmps)
    (hone : holders ThreadTmps.shareCount s.world.process.threadTmpsTable tmps.shareCount = 1)
    (hchildren : ∀ child, s.creating child ≠ some id) {q : CInt} (hq : q ≠ id) :
    s.world.tableOf q ≠ some tmps.fdTable := by
  have hrecord : ∀ x tmps', s.world.process.threadTmpsTable.lookup x = some tmps' →
      tmps'.fdTable = tmps.fdTable → x = id ∧ tmps'.shareCount = tmps.shareCount := by
    intro x tmps' hx heq
    have hrefs := (h.world.coherent id x tmps tmps' hid hx).resolve_right
      fun hapart => hapart.fdTable heq
    exact ⟨eq_of_holders_eq_one hid hone hx hrefs.shareCount, hrefs.shareCount⟩
  intro ha
  cases hrec : s.world.process.threadTmpsTable.lookup q with
  | some tmps' =>
      rw [World.tableOf_of_record hrec] at ha
      exact hq (hrecord q tmps' hrec (Option.some.inj ha)).1
  | none =>
      rw [World.tableOf, hrec] at ha
      obtain ⟨data, hdata, heq⟩ := Option.map_eq_some_iff.mp ha
      rcases h.world.started q data hdata with ⟨x, tmps', hx, rfl⟩ | howns
      · obtain ⟨-, hcount⟩ := hrecord x tmps' hx heq
        exact hchildren q (h.parent_eq hid hone hdata (congrArg some hcount))
      · exact howns.records id tmps hid heq.symm

/-! ### One event -/

/-- `wait_for_syscall` adds a thread for every new child, with the register as flags. -/
theorem threadsAdd_wait (kind : Creation) (rdi : CLong) {child : CInt} (hchild : 0 ≤ child.toInt) :
    (kind.wait rdi child).threadsAdd 0 = some (child, toCInt rdi) := by
  have hevent : isCloneEvent ((SIGTRAP ||| kind.event rdi <<< 8) <<< 8 ||| 0x7f) = true := by
    have hkinds : kind.event rdi = PTRACE_EVENT_FORK ∨ kind.event rdi = PTRACE_EVENT_VFORK ∨
        kind.event rdi = PTRACE_EVENT_CLONE := by
      cases kind with
      | fork => exact Or.inl rfl
      | vfork => exact Or.inr (Or.inl rfl)
      | clone =>
          simp only [Creation.event]
          split_ifs <;> simp
    rcases hkinds with h | h | h <;> rw [h] <;> decide
  simp only [Wait.threadsAdd, Creation.wait, Option.getD_some, hevent, hchild, and_self, if_true]

/-- The family with a new child, whose start data the tracer has put into `world`. -/
def created (s : Family) (kind : Creation) (parent child : CInt) (rdi : CLong)
    (world : World) : Family where
  world := world
  files := Function.update s.files child
    (if kind.Shares rdi then s.files parent else some s.nextFiles)
  nextFiles := s.nextFiles + 1
  creating := Function.update s.creating child (some parent)

/-- What `threads_add` has done for a new child: its start data has the table of its
parent or a table that nobody has. -/
structure Added (s : Family) (parent child : CInt) (rdi : CLong) (w : World)
    (data : StartData) (tmps : ThreadTmps) : Prop where
  sound : w.Sound
  record : s.world.process.threadTmpsTable.lookup parent = some tmps
  records : w.process.threadTmpsTable = s.world.process.threadTmpsTable
  started : w.started = s.world.started.insert child data
  shared : hasBit (toCInt rdi) CLONE_FILES = true →
    data = ⟨tmps.fdTable, some tmps.shareCount, some tmps.fdMutex⟩
  copied : hasBit (toCInt rdi) CLONE_FILES = false →
    data.shareCount = none ∧ ∀ q, s.world.tableOf q ≠ some data.fdTable

/-- The new child's table, and nobody else's, is the one of its start data. -/
theorem Added.tableOf {w : World} {data : StartData} {tmps : ThreadTmps} {parent child : CInt}
    {rdi : CLong} (h : s.Added parent child rdi w data tmps) :
    w.tableOf = Function.update s.world.tableOf child (some data.fdTable) := by
  funext x
  rw [Function.update_apply]
  split_ifs with hx
  · rw [hx, World.tableOf_of_started h.sound (by rw [h.started, Finmap.lookup_insert])]
  · exact World.tableOf_congr (by rw [h.records])
      (by rw [h.started, Finmap.lookup_insert_of_ne _ hx])

/-- No tracee has a table that the kernel has not handed out yet. -/
theorem Sound.files_ne_next (h : s.Sound) (q : CInt) : s.files q ≠ some s.nextFiles := fun hq =>
  Nat.lt_irrefl _ (h.fresh q _ hq)

/-- **The child of a `fork` shares** exactly if the bits were left over: the law is
kept if and only if the flags were meant. -/
theorem Sound.created_law_iff (h : s.Sound) {kind : Creation} {parent child : CInt} {rdi : CLong}
    (hlive : (s.files parent).isSome) (hne : parent ≠ child) {w : World} {data : StartData}
    {tmps : ThreadTmps} (hadded : s.Added parent child rdi w data tmps) :
    (s.created kind parent child rdi w).SharingLaw ↔
      FlagsMeant (.create kind parent child rdi) := by
  have hlaw : (s.created kind parent child rdi w).SharingLaw ↔
      SameClasses (Function.update s.world.tableOf child (some data.fdTable))
        (Function.update s.files child
          (if kind.Shares rdi then s.files parent else some s.nextFiles)) := by
    rw [← hadded.tableOf]
    exact Iff.rfl
  rw [hlaw]
  by_cases hshares : kind.Shares rdi
  · have hsame : some data.fdTable = s.world.tableOf parent := by
      rw [World.tableOf_of_record hadded.record, hadded.shared hshares.2]
    rw [if_pos hshares, hsame]
    exact iff_of_true (h.law.join child parent) fun hkind => absurd hshares.1 hkind
  · rw [if_neg hshares]
    cases hflag : hasBit (toCInt rdi) CLONE_FILES with
    | false =>
        refine iff_of_true ?_ fun _ => hflag
        exact h.law.separate (fun q _ _ => (hadded.copied hflag).2 q) fun q _ =>
          h.files_ne_next q
    | true =>
        have hkind : kind ≠ .clone := fun hkind => hshares ⟨hkind, hflag⟩
        refine iff_of_false (fun hbroken => ?_) fun hmeant => ?_
        · have hsame := hbroken child parent
          rw [Function.update_self, Function.update_self, Function.update_of_ne hne,
            Function.update_of_ne hne, World.tableOf_of_record hadded.record,
            hadded.shared hflag] at hsame
          exact h.files_ne_next parent ((hsame rfl hlive).mp ⟨tmps.fdTable, rfl, rfl⟩).symm
        · rw [hmeant hkind] at hflag
          cases hflag

/-- **A new child** keeps the invariant where it keeps the law. -/
theorem Sound.created (h : s.Sound) {kind : Creation} {parent child : CInt} {rdi : CLong}
    (hlive : (s.files parent).isSome) (hne : parent ≠ child) (hnofiles : s.files child = none)
    {w : World} {data : StartData} {tmps : ThreadTmps}
    (hadded : s.Added parent child rdi w data tmps)
    (hlaw : (s.created kind parent child rdi w).SharingLaw) :
    (s.created kind parent child rdi w).Sound := by
  refine ⟨hadded.sound, hlaw, fun p x hx => ?_, fun x => ?_, fun p hp hcreating => ?_,
    fun x y hxy => ?_⟩
  · change Function.update s.files child _ p = some x at hx
    rw [Function.update_apply] at hx
    show x < s.nextFiles + 1
    split_ifs at hx
    · have := h.fresh parent x hx
      omega
    · obtain rfl := Option.some.inj hx
      omega
    · have := h.fresh p x hx
      omega
  · show (w.started.lookup x).isSome ↔ (Function.update s.creating child _ x).isSome
    rw [hadded.started, lookup_insert_eq, Function.update_apply]
    split_ifs
    · exact iff_of_true rfl rfl
    · exact h.started x
  · change (Function.update s.files child _ p).isSome at hp
    change Function.update s.creating child _ p = none at hcreating
    rw [Function.update_apply] at hp hcreating
    show ∃ tmps, w.process.threadTmpsTable.lookup p = some tmps
    rw [hadded.records]
    split_ifs at hp hcreating
    exact h.registered p hp hcreating
  · change Function.update s.creating child _ x = some y at hxy
    show (Function.update s.files child _ y).isSome ∧
      ∃ tmps, w.process.threadTmpsTable.lookup y = some tmps ∧
        ∀ data count, w.started.lookup x = some data → data.shareCount = some count →
          count = tmps.shareCount
    rw [hadded.records, hadded.started]
    rw [Function.update_apply] at hxy
    split_ifs at hxy with hx
    · obtain rfl := Option.some.inj hxy
      rw [Function.update_of_ne hne, hx, Finmap.lookup_insert]
      refine ⟨hlive, tmps, hadded.record, fun data' count hdata' hcount => ?_⟩
      obtain rfl := Option.some.inj hdata'
      cases hflag : hasBit (toCInt rdi) CLONE_FILES with
      | true =>
          rw [hadded.shared hflag] at hcount
          exact (Option.some.inj hcount).symm
      | false =>
          rw [(hadded.copied hflag).1] at hcount
          cases hcount
    · obtain ⟨hlive', hold⟩ := h.parent x y hxy
      have hy : y ≠ child := by
        rintro rfl
        rw [hnofiles] at hlive'
        cases hlive'
      rw [Function.update_of_ne hy, Finmap.lookup_insert_of_ne _ hx]
      exact ⟨hlive', hold⟩

/-- **A child is created.**  The law is kept if and only if the flags were meant. -/
theorem Sound.create (h : s.Sound) {kind : Creation} {parent child : CInt} {rdi : CLong}
    (hscope : s.InScope (.create kind parent child rdi)) :
    ∃ s', s.step (.create kind parent child rdi) = .ok s' ∧
      (FlagsMeant (.create kind parent child rdi) → s'.Sound) ∧
      (s'.SharingLaw → FlagsMeant (.create kind parent child rdi)) := by
  obtain ⟨hparent, hpos, hnofiles, -, hnorec⟩ := hscope
  obtain ⟨tmps, hid⟩ := h.registered parent hparent.live hparent.registered
  obtain ⟨w, data, hstep, hsound, hrecs, hstarted, hdata⟩ :=
    h.world.threadsAdd hid hnorec (toCInt rdi)
  have hne : parent ≠ child := by
    rintro rfl
    rw [hnorec] at hid
    cases hid
  have hadded : s.Added parent child rdi w data tmps :=
    ⟨hsound, hid, hrecs, hstarted, fun hflag => by rwa [if_pos hflag] at hdata,
      fun hflag => by rwa [if_neg (by rw [hflag]; exact Bool.false_ne_true)] at hdata⟩
  have hiff : (s.created kind parent child rdi w).SharingLaw ↔
      FlagsMeant (.create kind parent child rdi) := h.created_law_iff hparent.live hne hadded
  refine ⟨s.created kind parent child rdi w, ?_, fun hmeant => ?_, hiff.mp⟩
  · simp only [step, threadsAdd_wait kind rdi hpos, hstep, ok_bind]
    rfl
  · exact h.created hparent.live hne hnofiles hadded (hiff.mpr hmeant)

/-- **A child is registered**, with the table that its start data had. -/
theorem Sound.register (h : s.Sound) {child : CInt} (hcreating : (s.creating child).isSome)
    (block : ThreadTmps) : ∃ s', s.step (.register child block) = .ok s' ∧ s'.Sound := by
  obtain ⟨data, hdata⟩ := Option.isSome_iff_exists.mp ((h.started child).mpr hcreating)
  obtain ⟨w', tmps, hstep, hsound, hrecs, hfd, hstarted⟩ := h.world.threadFunc hdata block
  have hnorec := h.world.unregistered child data hdata
  have htable : w'.tableOf = s.world.tableOf := by
    funext x
    by_cases hx : x = child
    · have hrec : w'.process.threadTmpsTable.lookup child = some tmps := by
        rw [hrecs, Finmap.lookup_insert]
      rw [hx, World.tableOf_of_started h.world hdata, World.tableOf_of_record hrec, hfd]
    · exact World.tableOf_congr (by rw [hrecs, Finmap.lookup_insert_of_ne _ hx])
        (by rw [hstarted, Finmap.lookup_erase_ne hx])
  have hstep' : s.step (.register child block) = .ok { s with
      world := w'
      creating := Function.update s.creating child none } := by
    simp only [step, hstep, ok_bind]
  refine ⟨_, hstep', hsound, ?_, h.fresh, ?_, ?_, ?_⟩
  · unfold SharingLaw
    rw [htable]
    exact h.law
  · intro x
    change (w'.started.lookup x).isSome ↔ (Function.update s.creating child _ x).isSome
    rw [hstarted, lookup_erase_eq, Function.update_apply]
    split_ifs
    · exact Iff.rfl
    · exact h.started x
  · intro p hp hnone
    change Function.update s.creating child _ p = none at hnone
    change ∃ tmps, w'.process.threadTmpsTable.lookup p = some tmps
    rw [Function.update_apply] at hnone
    rw [hrecs, lookup_insert_eq]
    split_ifs with hpc
    · exact ⟨tmps, rfl⟩
    · rw [if_neg hpc] at hnone
      exact h.registered p hp hnone
  · intro x y hxy
    change Function.update s.creating child _ x = some y at hxy
    change (s.files y).isSome ∧ ∃ tmps, w'.process.threadTmpsTable.lookup y = some tmps ∧
      ∀ data count, w'.started.lookup x = some data → data.shareCount = some count →
        count = tmps.shareCount
    rw [Function.update_apply] at hxy
    split_ifs at hxy with hx
    obtain ⟨hlive, tmps', htmps', hsame⟩ := h.parent x y hxy
    have hy : y ≠ child := by
      rintro rfl
      rw [hnorec] at htmps'
      cases htmps'
    rw [hrecs, hstarted, Finmap.lookup_insert_of_ne _ hy, Finmap.lookup_erase_ne hx]
    exact ⟨hlive, tmps', htmps', hsame⟩

/-- **A tracee calls `execve`**, and shares its table with nobody any more. -/
theorem Sound.execve (h : s.Sound) {tracee : CInt} (hproceeds : s.Proceeds tracee) :
    ∃ s', s.step (.execve tracee) = .ok s' ∧ s'.Sound := by
  obtain ⟨tmps, hid⟩ := h.registered tracee hproceeds.live hproceeds.registered
  obtain ⟨w', tmps', hstep, hsound, hrecs, hstarted, halone⟩ := h.world.execveReturn hid
  have htable : w'.tableOf = Function.update s.world.tableOf tracee (some tmps'.fdTable) := by
    funext x
    rw [Function.update_apply]
    split_ifs with hx
    · rw [hx, World.tableOf_of_record]
      rw [hrecs, Finmap.lookup_insert]
    · exact World.tableOf_congr (by rw [hrecs, Finmap.lookup_insert_of_ne _ hx]) (by rw [hstarted])
  have hstep' : s.step (.execve tracee) = .ok { s with
      world := w'
      files := Function.update s.files tracee (some s.nextFiles)
      nextFiles := s.nextFiles + 1 } := by
    simp only [step, hstep, ok_bind]
  refine ⟨_, hstep', hsound, ?_, ?_, fun x => ?_, ?_, ?_⟩
  · unfold SharingLaw
    rw [htable]
    refine h.law.separate (fun q hq _ => ?_) fun q _ => h.files_ne_next q
    rcases halone with ⟨hone, rfl⟩ | hnew
    · exact h.tableOf_ne hid hone hproceeds.children hq
    · exact hnew q
  · intro p x hx
    change Function.update s.files tracee _ p = some x at hx
    change x < s.nextFiles + 1
    rw [Function.update_apply] at hx
    split_ifs at hx
    · obtain rfl := Option.some.inj hx
      omega
    · have := h.fresh p x hx
      omega
  · change (w'.started.lookup x).isSome ↔ _
    rw [hstarted]
    exact h.started x
  · intro p hp hnone
    change (Function.update s.files tracee _ p).isSome at hp
    change ∃ tmps, w'.process.threadTmpsTable.lookup p = some tmps
    rw [Function.update_apply] at hp
    rw [hrecs, lookup_insert_eq]
    split_ifs at hp ⊢
    · exact ⟨tmps', rfl⟩
    · exact h.registered p hp hnone
  · intro x y hxy
    have hy : y ≠ tracee := fun heq => hproceeds.children x (heq ▸ hxy)
    change (Function.update s.files tracee _ y).isSome ∧
      ∃ tmps, w'.process.threadTmpsTable.lookup y = some tmps ∧
        ∀ data count, w'.started.lookup x = some data → data.shareCount = some count →
          count = tmps.shareCount
    rw [Function.update_of_ne hy, hrecs, hstarted, Finmap.lookup_insert_of_ne _ hy]
    exact h.parent x y hxy

/-- **A tracee exits.** -/
theorem Sound.exit (h : s.Sound) {tracee : CInt} (hproceeds : s.Proceeds tracee) :
    ∃ s', s.step (.exit tracee) = .ok s' ∧ s'.Sound := by
  have hlive : ∀ p, (Function.update s.files tracee none p).isSome → (s.files p).isSome := by
    intro p hp
    rw [Function.update_apply] at hp
    split_ifs at hp
    · cases hp
    · exact hp
  refine ⟨_, rfl, h.world, h.law.drop tracee, fun p x hx => ?_, h.started, fun p hp hnone => ?_,
    fun x y hxy => ?_⟩
  · change Function.update s.files tracee none p = some x at hx
    rw [Function.update_apply] at hx
    split_ifs at hx
    exact h.fresh p x hx
  · exact h.registered p (hlive p hp) hnone
  · have hy : y ≠ tracee := fun heq => hproceeds.children x (heq ▸ hxy)
    change (Function.update s.files tracee none y).isSome ∧ _
    rw [Function.update_of_ne hy]
    exact h.parent x y hxy

/-- **A tracer thread ends** after its tracee: a child that has been handed its table
has a live parent that still counts. -/
theorem Sound.tracerEnd (h : s.Sound) {tracee : CInt} (hdead : s.files tracee = none)
    {tmps : ThreadTmps} (hid : s.world.process.threadTmpsTable.lookup tracee = some tmps) :
    ∃ s', s.step (.tracerEnd tracee) = .ok s' ∧ s'.Sound := by
  have hparent : ∀ x, s.creating x ≠ some tracee := fun x hx => by
    have hlive := (h.parent x tracee hx).1
    rw [hdead] at hlive
    cases hlive
  have hkept : holders ThreadTmps.shareCount s.world.process.threadTmpsTable tmps.shareCount = 1 →
      ∀ x data, s.world.started.lookup x = some data → data.shareCount ≠ some tmps.shareCount :=
    fun hone x data hdata hcount => hparent x (h.parent_eq hid hone hdata hcount)
  obtain ⟨w', hstep, hsound, hrecs, hstarted⟩ := h.world.tracerEnd hid hkept
  have hstep' : s.step (.tracerEnd tracee) = .ok { s with world := w' } := by
    simp only [step, hstep, ok_bind]
  have hne : ∀ p, (s.files p).isSome → p ≠ tracee := by
    rintro p hp rfl
    rw [hdead] at hp
    cases hp
  refine ⟨_, hstep', hsound, ?_, h.fresh, fun x => ?_, fun p hp hnone => ?_, fun x y hxy => ?_⟩
  · exact h.law.congr fun p hp => World.tableOf_congr
      (by rw [hrecs, Finmap.lookup_erase_ne (hne p hp)]) (by rw [hstarted])
  · change (w'.started.lookup x).isSome ↔ _
    rw [hstarted]
    exact h.started x
  · change ∃ tmps, w'.process.threadTmpsTable.lookup p = some tmps
    rw [hrecs, Finmap.lookup_erase_ne (hne p hp)]
    exact h.registered p hp hnone
  · obtain ⟨hlive, hold⟩ := h.parent x y hxy
    change _ ∧ ∃ tmps, w'.process.threadTmpsTable.lookup y = some tmps ∧
      ∀ data count, w'.started.lookup x = some data → data.shareCount = some count →
        count = tmps.shareCount
    rw [hrecs, hstarted, Finmap.lookup_erase_ne (hne y hlive)]
    exact ⟨hlive, hold⟩

/-- **One event keeps the invariant**, and the law, if and only if the flags were
meant. -/
theorem Sound.step (h : s.Sound) {e : FamilyEvent} (hscope : s.InScope e) :
    ∃ s', s.step e = .ok s' ∧ (FlagsMeant e → s'.Sound) ∧ (s'.SharingLaw → FlagsMeant e) := by
  cases e with
  | create kind parent child rdi => exact h.create hscope
  | register child block =>
      obtain ⟨s', hstep, hsound⟩ := h.register hscope block
      exact ⟨s', hstep, fun _ => hsound, fun _ => trivial⟩
  | execve tracee =>
      obtain ⟨s', hstep, hsound⟩ := h.execve hscope
      exact ⟨s', hstep, fun _ => hsound, fun _ => trivial⟩
  | exit tracee =>
      obtain ⟨s', hstep, hsound⟩ := h.exit hscope
      exact ⟨s', hstep, fun _ => hsound, fun _ => trivial⟩
  | tracerEnd tracee =>
      obtain ⟨hdead, tmps, hid⟩ := hscope
      obtain ⟨s', hstep, hsound⟩ := h.tracerEnd hdead hid
      exact ⟨s', hstep, fun _ => hsound, fun _ => trivial⟩

/-- One tracee, and the tracer after `main_tracer` has registered it. -/
def first (tracee : CInt) (world : World) : Family where
  world := world
  files := Function.update (fun _ => none) tracee (some 0)
  nextFiles := 1
  creating := fun _ => none

theorem first_sound {tracee : CInt} {block : ThreadTmps} {w : World}
    (hmain : mainTracer tracee block = .ok w) : (first tracee w).Sound := by
  obtain ⟨w', tmps, hmain', hsound, hrecs, hstarted⟩ := World.mainTracer_sound tracee block
  obtain rfl := Except.ok.inj (hmain.symm.trans hmain')
  have hself : ∀ p, ((first tracee w).files p).isSome → p = tracee := by
    intro p hp
    by_contra hne
    change (Function.update (fun _ => none) tracee (some 0) p).isSome at hp
    rw [Function.update_of_ne hne] at hp
    cases hp
  have hrec : w.process.threadTmpsTable.lookup tracee = some tmps := by
    rw [hrecs, Finmap.lookup_insert]
  refine ⟨hsound, fun p q hp hq => ?_, fun p x hx => ?_, fun child => ?_, fun p hp _ => ?_,
    fun child parent hcreating => nomatch hcreating⟩
  · obtain rfl := hself p hp
    obtain rfl := hself q hq
    exact iff_of_true ⟨_, World.tableOf_of_record hrec, World.tableOf_of_record hrec⟩ rfl
  · obtain rfl := hself p (by rw [hx]; rfl)
    change Function.update (fun _ => none) p (some 0) p = some x at hx
    rw [Function.update_self] at hx
    obtain rfl := Option.some.inj hx
    exact Nat.zero_lt_one
  · change (w.started.lookup child).isSome ↔ _
    rw [hstarted, Finmap.lookup_empty]
    exact Iff.rfl
  · obtain rfl := hself p hp
    exact ⟨tmps, hrec⟩

end Family

/-- **Tracer tables are shared as kernel tables are if and only if `RDI` never says
`CLONE_FILES` at a `fork` or a `vfork`.**  Over every run from the first tracee on in
which tracees create children, call `execve` and exit, every child is registered
before its parent's next step, and no number is used again while it has a record, two
live tracees have one table for the tracer exactly
if they share one in the kernel, in every state, if and only if the flags were meant
at every event; then no step fails. -/
theorem sharing_law {tracee : CInt} {block : ThreadTmps} {w : World}
    (hmain : mainTracer tracee block = .ok w) {l : List FamilyEvent}
    (hscope : Along Family.step Family.InScope (Family.first tracee w) l) :
    (Always Family.step Family.SharingLaw (Family.first tracee w) l ↔
      Along Family.step (fun _ e => Family.FlagsMeant e) (Family.first tracee w) l) ∧
    (Along Family.step (fun _ e => Family.FlagsMeant e) (Family.first tracee w) l →
      ∃ s', l.foldlM Family.step (Family.first tracee w) = .ok s') := by
  have hfirst := Family.first_sound hmain
  refine ⟨always_iff_along (fun s h => h.law) (fun s e h hin => h.step hin) hscope hfirst,
    fun hmeant => ?_⟩
  refine Along.run_ok (fun _ _ h => h) (Along.along (I := Family.Sound)
    (P := fun s e => s.InScope e ∧ Family.FlagsMeant e) ?_ ?_ (hscope.and hmeant) hfirst)
  · rintro s e s' h ⟨hin, hmeant⟩ hstep
    obtain ⟨s'', hstep', hsound, -⟩ := h.step hin
    obtain rfl := Except.ok.inj (hstep.symm.trans hstep')
    exact hsound hmeant
  · rintro s e h ⟨hin, -⟩
    exact (h.step hin).imp fun _ hs => hs.1

/-- A child with `CLONE_VM` and `CLONE_FILES`, a child of that child, an `execve` of the
first child and the end of the first tracee. -/
def cloneThenFork (block : ThreadTmps) : List FamilyEvent :=
  [.create .clone 100 101 0x500, .register 101 block, .create .fork 101 102 0x7ffc1000,
    .register 102 block, .execve 101, .exit 100, .tracerEnd 100]

theorem sharing_law_fork : ∃ w, mainTracer 100 (Tracer.ofTable ∅).tmps = .ok w ∧
    Always Family.step Family.SharingLaw (Family.first 100 w)
      (cloneThenFork (Tracer.ofTable ∅).tmps) := by
  obtain ⟨w, hmain⟩ : ∃ w, mainTracer 100 (Tracer.ofTable ∅).tmps = .ok w := ⟨_, rfl⟩
  refine ⟨w, hmain, (sharing_law hmain ?_).1.mpr ?_⟩
  · obtain rfl := Except.ok.inj hmain
    refine Along.cons ⟨⟨rfl, rfl, nofun⟩, by decide, rfl, rfl, rfl⟩ rfl (Along.cons rfl rfl ?_)
    refine Along.cons ⟨⟨rfl, rfl, fun child hc => ?_⟩, by decide, rfl, rfl, rfl⟩ rfl
      (Along.cons rfl rfl ?_)
    · simp only [Function.update_apply] at hc
      split_ifs at hc
      cases hc
    refine Along.cons ⟨rfl, rfl, fun child hc => ?_⟩ rfl ?_
    · simp only [Function.update_apply] at hc
      split_ifs at hc
      cases hc
    refine Along.cons ⟨rfl, rfl, fun child hc => ?_⟩ rfl ?_
    · simp only [Function.update_apply] at hc
      split_ifs at hc
      cases hc
    exact ⟨⟨rfl, _, rfl⟩, fun _ _ => trivial⟩
  · have hfork : hasBit (toCInt 0x7ffc1000) CLONE_FILES = false := by decide
    exact ⟨fun h => absurd rfl h, fun _ _ => ⟨trivial, fun _ _ => ⟨fun _ => hfork, fun _ _ =>
      ⟨trivial, fun _ _ => ⟨trivial, fun _ _ => ⟨trivial, fun _ _ => ⟨trivial, fun _ _ =>
        trivial⟩⟩⟩⟩⟩⟩⟩

/-- **A `fork` with leftover bits:** the child is taken for one that shares. -/
theorem sharing_law_leftover_bits : ∃ w, mainTracer 100 (Tracer.ofTable ∅).tmps = .ok w ∧
    Along Family.step Family.InScope (Family.first 100 w) [.create .fork 100 101 0x400] ∧
    ¬Always Family.step Family.SharingLaw (Family.first 100 w)
      [.create .fork 100 101 0x400] := by
  obtain ⟨w, hmain⟩ : ∃ w, mainTracer 100 (Tracer.ofTable ∅).tmps = .ok w := ⟨_, rfl⟩
  have hin : (Family.first 100 w).InScope (.create .fork 100 101 0x400) := by
    obtain rfl := Except.ok.inj hmain
    exact ⟨⟨rfl, rfl, nofun⟩, by decide, rfl, rfl, rfl⟩
  refine ⟨w, hmain, ⟨hin, fun _ _ => trivial⟩, fun h => ?_⟩
  obtain ⟨s', hstep, -, hbreak⟩ := (Family.first_sound hmain).step hin
  have hmeant := hbreak (h.2 s' hstep).head
  exact absurd (hmeant nofun) (show ¬hasBit (toCInt 0x400) CLONE_FILES = false by decide)

end Iotrace
