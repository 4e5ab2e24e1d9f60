/-
# The descriptors of all tracees, as the handlers see them

Where a syscall has its effect when its return is handled, the table that the tracer has
for a live tracee says what the kernel says: the same descriptors, with the same names and
the same flags.  That is so whichever tracees share a table, are handed one or a copy of
one, leave it at an `execve` or exit, and in whatever order their events come; the
condition is that the tracer sees what it needs to see of every event (`Handled.Seen`).

`Handled.Sound` is the invariant.  `Iotrace.TraceTables` carries it over to the traces in
which the kernel performs a syscall earlier than its return is handled.
-/

import Iotrace.HandledTrace

namespace Iotrace

open Kernel Runs RefCount FiniteMap

/-! ### One handler -/

/-- The name and the flag of an entry. -/
def FdTableEntry.descriptor (entry : FdTableEntry) : Descriptor := ⟨entry.filename, entry.cloexec⟩

/-- The names and the flags. -/
theorem View.descriptors : View FdTableEntry.descriptor id Eq where
  refl _ := rfl
  fresh _ _ _ h := congrArg (Descriptor.mk _) h
  derived f entry d cl cl' h hcl := by
    obtain rfl : FdTableEntry.descriptor entry = d := h
    exact congrArg (Descriptor.mk _) hcl

/-- Tables that agree on names and flags are the same. -/
theorem agrees_descriptors_iff {t : FdTable} {K : Kernel.Table} :
    Agrees FdTableEntry.descriptor id t K ↔ K = ofFdTable t := by
  constructor
  · intro h
    funext fd
    exact ((h fd).trans (congrFun Option.map_id _)).symm
  · rintro rfl fd
    exact (congrFun Option.map_id _).symm

/-- An `execve` closes the descriptors whose entries are dropped. -/
theorem execve_ofFdTable (t : FdTable) :
    Kernel.execve (ofFdTable t) = ofFdTable (fdTableRemoveCloexec t) := by
  funext fd
  rw [Kernel.execve, ofFdTable, ofFdTable, lookup_fdTableRemoveCloexec]
  cases t.lookup fd with
  | none => rfl
  | some entry => cases hcl : entry.cloexec <;> simp [Option.filter, hcl]

section Return

variable {s : Tracer} {t : FdTable} {tmps₀ : ThreadTmps} {c : Completed}

/-- A return handler after the call handler is a completed syscall. -/
theorem handleCompleted_of_call (hcall : handleSyscallCall tmps₀ c.call c.sc = .ok s.tmps) :
    handleCompleted { s with tmps := tmps₀ } c = handleSyscallReturn s c.ret c.sc := by
  rw [handleCompleted, hcall, ok_bind]

/-- **A return handler follows the kernel.** -/
theorem handleSyscallReturn_follows (hs : s.Holds t) (hfits : t.Fits)
    (hcall : handleSyscallCall tmps₀ c.call c.sc = .ok s.tmps)
    (hpermitted : c.Permitted (ofFdTable t)) (hexec : sysno c.sc ≠ .SYS_execve)
    (hpeek : c.ArrayPeeked) (hseen : c.FlagSeen Eq) :
    ∃ t' fileStat syscalls, handleSyscallReturn s c.ret c.sc =
        .ok ⟨s.heap.setTable s.tmps.fdTable t', s.tmps, fileStat, syscalls⟩ ∧
      t'.Fits ∧ c.leaves (ofFdTable t) = ofFdTable t' := by
  obtain ⟨now, hnow⟩ := Option.isSome_iff_exists.mp hpermitted.timed.ret
  obtain ⟨-, hscr, -⟩ := handleSyscallCall_ok hcall
  obtain ⟨fileStat, syscalls, hret⟩ := handleSyscallReturn_eq hs hscr hnow hexec
  rw [Completed.leaves, if_neg hexec]
  by_cases hfol : c.Followed
  · obtain ⟨t', ht', hagree⟩ := Completed.tableEffect_agrees View.descriptors
      (agrees_descriptors_iff.mpr rfl) hfits (hpermitted.followed hfol) hpeek hseen
    rw [ht'] at hret
    exact ⟨t', fileStat, syscalls, hret, Completed.tableEffect_fits hfits ht',
      agrees_descriptors_iff.mp hagree⟩
  · rw [Completed.tableEffect_of_not_followed hfol] at hret
    exact ⟨t, fileStat, syscalls, hret, hfits, Completed.kernelEffect_of_not_followed hfol _⟩

/-- `execve` is left to `handle_execve_return`. -/
theorem handleSyscallReturn_execve (hret : c.ret.clock.isSome)
    (hexec : sysno c.sc = .SYS_execve) :
    ∃ syscallTable, handleSyscallReturn s c.ret c.sc =
      (handleExecveReturn s.heap s.tmps).map fun r =>
        { s with heap := r.1, tmps := r.2, syscallTable } := by
  obtain ⟨now, hnow⟩ := Option.isSome_iff_exists.mp hret
  refine ⟨syscallStatIncr s.syscallTable c.sc (now.toNs - s.tmps.startTime.toNs), ?_⟩
  simp only [handleSyscallReturn, hexec, handleUnconsideredReturn, calcElapsedNs_of_clock hnow,
    ok_bind, handleUnconsideredSwitch]
  cases handleExecveReturn s.heap s.tmps <;> rfl

end Return

/-! ### The record of a tracee changes -/

/-- The tables that the tracees have do not depend on the rest of their records. -/
theorem World.tableOf_setRecord {w : World} {id : CInt} {tmps tmps' : ThreadTmps}
    (hid : w.process.threadTmpsTable.lookup id = some tmps) (hrefs : tmps.SameRefs tmps')
    (heap : Heap) (q : CInt) :
    tableOf ⟨⟨heap, w.process.threadTmpsTable.insert id tmps'⟩, w.started⟩ q = w.tableOf q := by
  by_cases hq : q = id
  · rw [hq, tableOf_of_record (Finmap.lookup_insert _), tableOf_of_record hid, hrefs.fdTable]
  · exact tableOf_congr (Finmap.lookup_insert_of_ne _ hq) rfl

namespace Family

/-- **The handlers of a tracee** keep its references and change its table. -/
theorem Sound.setRecord {s : Family} (h : s.Sound) {tracee : CInt} {tmps tmps' : ThreadTmps}
    (hid : s.world.process.threadTmpsTable.lookup tracee = some tmps)
    (hrefs : tmps.SameRefs tmps') (t' : FdTable) :
    Sound { s with world := ⟨⟨s.world.process.heap.setTable tmps.fdTable t',
      s.world.process.threadTmpsTable.insert tracee tmps'⟩, s.world.started⟩ } := by
  refine ⟨(h.world.setTable tmps.fdTable t').withRecord hid hrefs, ?_, h.fresh, h.started,
    fun p hp hcreating => ?_, fun child parent hchild => ?_⟩
  · exact h.law.congr fun p _ => World.tableOf_setRecord hid hrefs _ p
  · show ∃ tmps₁, (s.world.process.threadTmpsTable.insert tracee tmps').lookup p = some tmps₁
    rw [lookup_insert_eq]
    split_ifs
    · exact ⟨tmps', rfl⟩
    · exact h.registered p hp hcreating
  · obtain ⟨hlive, tmps₁, hparent, hsame⟩ := h.parent child parent hchild
    show _ ∧ ∃ tmps₁, (s.world.process.threadTmpsTable.insert tracee tmps').lookup parent =
      some tmps₁ ∧ _
    rw [lookup_insert_eq]
    split_ifs with hp
    · subst hp
      obtain rfl := Option.some.inj (hid.symm.trans hparent)
      exact ⟨hlive, tmps', rfl, by rw [hrefs.shareCount]; exact hsame⟩
    · exact ⟨hlive, tmps₁, hparent, hsame⟩

/-- A tracee that is alone with its counter is alone with its table, if it has no children
that are still to be registered. -/
theorem Sound.alone {s : Family} (h : s.Sound) {id : CInt} {tmps : ThreadTmps}
    (hid : s.world.process.threadTmpsTable.lookup id = some tmps)
    (hchildren : ∀ child, s.creating child ≠ some id) (q : CInt) :
    holders ThreadTmps.shareCount s.world.process.threadTmpsTable tmps.shareCount = 1 → q ≠ id →
      s.world.tableOf q ≠ some tmps.fdTable :=
  fun hone hq => h.tableOf_ne hid hone hchildren hq

end Family

namespace Handled

/-! ### The invariant -/

/-- The tracer has the descriptors of every live tracee as the kernel has them, and shares
them as the kernel does. -/
structure Follows (s : Handled) : Prop where
  family : s.family.Sound
  tables : ∀ p k, s.family.files p = some k →
    ∃ t, s.family.world.contents p = some t ∧ t.Fits ∧ s.tables k = ofFdTable t

/-- The invariant. -/
structure Sound (s : Handled) : Prop extends s.Follows where
  inCalls : s.InCalls

variable {s s' : Handled} {tracee : CInt}

/-- The kernel's descriptors of a live tracee. -/
theorem kernel_table {k : ℕ} (hk : s.family.files tracee = some k) :
    s.kernel.table tracee = s.tables k := by
  simp only [Processes.table, kernel, hk, Option.elim_some]

theorem kernel_setTable {k : ℕ} (hk : s.family.files tracee = some k) (K' : Kernel.Table) :
    s.kernel.setTable tracee K' = Function.update s.tables k K' := by
  simp only [Processes.setTable, kernel, hk, Option.elim_some]

/-- What the handlers of a tracee work on. -/
theorem Follows.tracer (h : s.Follows) {tmps : ThreadTmps} {k : ℕ}
    (hid : s.family.world.process.threadTmpsTable.lookup tracee = some tmps)
    (hk : s.family.files tracee = some k) :
    ∃ t, s.tracer tracee = .ok ⟨s.family.world.process.heap, tmps,
        (s.stats tracee).fileStatTable, (s.stats tracee).syscallTable⟩ ∧
      Tracer.Holds ⟨s.family.world.process.heap, tmps,
        (s.stats tracee).fileStatTable, (s.stats tracee).syscallTable⟩ t ∧
      t.Fits ∧ s.tables k = ofFdTable t := by
  obtain ⟨t, hcontents, hfits, hagree⟩ := h.tables tracee k hk
  rw [World.contents_of_record hid] at hcontents
  refine ⟨t, ?_, ⟨hcontents, (h.family.world.live tracee tmps hid).2⟩, hfits, hagree⟩
  rw [Handled.tracer, threadTmpsLookup, hid]

/-! ### One event -/

/-- **A tracee creates a child.** -/
theorem Follows.create (h : s.Follows) {kind : Creation} {parent child : CInt} {rdi : CLong}
    (hscope : s.family.InScope (.create kind parent child rdi))
    (hmeant : Family.FlagsMeant (.create kind parent child rdi)) :
    ∃ s', s.step (.create kind parent child rdi (s.kernel.table parent)) = .ok s' ∧
      s'.Follows := by
  obtain ⟨family, hstep, hfamily, -⟩ := h.family.create hscope
  obtain ⟨hparent, hpos, -, -, hnorec⟩ := hscope
  obtain ⟨w, rfl, -, hadd⟩ := Family.create_ok hstep
  have hadd := hadd child (toCInt rdi) (Family.threadsAdd_wait kind rdi hpos)
  obtain ⟨tmps, hid⟩ := h.family.registered parent hparent.live hparent.registered
  have hcontents := h.family.world.threadsAdd_contents hid hnorec hadd
  obtain ⟨x, hx⟩ := Option.isSome_iff_exists.mp hparent.live
  refine ⟨_, by simp only [step, hstep, ok_bind]; rfl, hfamily hmeant, fun p k hp => ?_⟩
  change Function.update s.family.files child _ p = some k at hp
  show ∃ t, w.contents p = some t ∧ t.Fits ∧
    (if kind.Shares rdi then s.tables else Function.update s.tables s.family.nextFiles
      (s.kernel.table parent)) k = ofFdTable t
  rw [hcontents]
  rw [Function.update_apply] at hp
  split_ifs at hp ⊢ with hchild hshares
  · exact h.tables parent k hp
  · obtain rfl := Option.some.inj hp
    obtain ⟨t, ht, hfits, hagree⟩ := h.tables parent x hx
    refine ⟨t, ht, hfits, ?_⟩
    rw [Function.update_self, kernel_table hx]
    exact hagree
  · exact h.tables p k hp
  · rw [Function.update_of_ne (h.family.fresh p k hp).ne]
    exact h.tables p k hp

/-- **The thread of a child starts.** -/
theorem Follows.register (h : s.Follows) {child : CInt} {block : ThreadTmps}
    (hcreating : (s.family.creating child).isSome) :
    ∃ s', s.step (.register child block) = .ok s' ∧ s'.Follows := by
  obtain ⟨family, hstep, hfamily⟩ := h.family.register hcreating block
  obtain ⟨data, hdata⟩ := Option.isSome_iff_exists.mp ((h.family.started child).mpr hcreating)
  have hstep' : s.step (.register child block) = .ok { s with
      family, stats := Function.update s.stats child .create } := by
    simp only [step, hstep, ok_bind]
  obtain ⟨w, hfunc, heq⟩ := step_register hstep'
  refine ⟨_, hstep', hfamily, fun p k hp => ?_⟩
  obtain rfl : family = _ := congrArg Handled.family heq
  obtain ⟨t, ht⟩ := h.tables p k hp
  exact ⟨t, (h.family.world.threadFunc_contents hdata hfunc p).trans ht.1, ht.2⟩

/-- **A handler of a tracee returns,** and the table that it leaves is seen by all tracees
that have it. -/
theorem Follows.handled (h : s.Follows) {tmps tmps' : ThreadTmps} {t' : FdTable} {k : ℕ}
    (hid : s.family.world.process.threadTmpsTable.lookup tracee = some tmps)
    (hk : s.family.files tracee = some k) (hrefs : tmps.SameRefs tmps') (hfits : t'.Fits)
    (hfamily : s'.family = { s.family with
      world := ⟨⟨s.family.world.process.heap.setTable tmps.fdTable t',
        s.family.world.process.threadTmpsTable.insert tracee tmps'⟩, s.family.world.started⟩ })
    (htables : s'.tables = Function.update s.tables k (ofFdTable t')) : s'.Follows := by
  obtain ⟨t, hcell, -, -⟩ := h.tables tracee k hk
  rw [World.contents_of_record hid] at hcell
  have htracee := World.tableOf_of_record hid
  refine ⟨by rw [hfamily]; exact h.family.setRecord hid hrefs t', fun p k' hp => ?_⟩
  rw [hfamily] at hp
  have hclass : s.family.world.tableOf p = some tmps.fdTable ↔ k' = k := by
    have hlaw := h.family.law p tracee (by rw [hp]; rfl) (by rw [hk]; rfl)
    rw [hp, hk, htracee] at hlaw
    constructor
    · exact fun heq => Option.some.inj (hlaw.mp ⟨_, heq, rfl⟩)
    · rintro rfl
      obtain ⟨a, ha, heq⟩ := hlaw.mpr rfl
      rw [ha, heq]
  have hcontents : World.contents ⟨⟨s.family.world.process.heap.setTable tmps.fdTable t',
      s.family.world.process.threadTmpsTable.insert tracee tmps'⟩, s.family.world.started⟩ p =
      if s.family.world.tableOf p = some tmps.fdTable then some t'
      else s.family.world.contents p :=
    World.Sound.setTable_contents hid hrefs hcell t' p
  rw [hfamily, htables, hcontents]
  split_ifs with hp'
  · rw [hclass.mp hp', Function.update_self]
    exact ⟨t', rfl, hfits, rfl⟩
  · rw [Function.update_of_ne fun heq => hp' (hclass.mpr heq)]
    exact h.tables p k' hp

/-- **A tracee enters a syscall.** -/
theorem Follows.syscallCall (h : s.Follows) {stop : Stop}
    (hscope : s.InScope (.syscallCall tracee stop)) :
    ∃ s', s.step (.syscallCall tracee stop) = .ok s' ∧ s'.Follows := by
  obtain ⟨hlive, hregistered, -, hclock, hread⟩ := hscope
  obtain ⟨tmps, hid⟩ := h.family.registered tracee hlive hregistered
  obtain ⟨k, hk⟩ := Option.isSome_iff_exists.mp hlive
  obtain ⟨t, htracer, hholds, hfits, hagree⟩ := h.tracer hid hk
  obtain ⟨now, hnow⟩ := Option.isSome_iff_exists.mp hclock
  obtain ⟨tmps', hcall, hrefs, -, -⟩ :=
    handleSyscallCall_scratch (c := ⟨stop, stop⟩) hnow hread tmps
  have hcall : handleSyscallCall tmps stop (Trace.syscall stop) = .ok tmps' := hcall
  refine ⟨_, by simp only [step, htracer, ok_bind, hcall]; rfl, ?_⟩
  refine h.handled hid hk hrefs hfits ?_ ?_
  · rw [Heap.setTable_same hholds.table]
    rfl
  · rw [← hagree, Function.update_eq_self]
    rfl

/-- **A syscall other than `execve` returns.** -/
theorem Follows.syscallReturn (h : s.Follows) (hcalls : s.InCalls) {call stop : Stop}
    (hcall : s.calls tracee = some call)
    (hpermitted : Completed.Permitted ⟨call, stop⟩ (s.kernel.table tracee))
    (hexec : sysno (Trace.syscall call) ≠ .SYS_execve)
    (hseen : Completed.ArrayPeeked ⟨call, stop⟩ ∧ Completed.FlagSeen Eq ⟨call, stop⟩) :
    ∃ s', s.step (.syscallReturn tracee stop
        (Completed.leaves ⟨call, stop⟩ (s.kernel.table tracee))) = .ok s' ∧ s'.Follows := by
  obtain ⟨hlive, tmps₀, tmps, hid, hhandled⟩ := hcalls tracee call hcall
  obtain ⟨k, hk⟩ := Option.isSome_iff_exists.mp hlive
  obtain ⟨t, htracer, hholds, hfits, hagree⟩ := h.tracer hid hk
  rw [kernel_table hk, hagree] at hpermitted ⊢
  obtain ⟨t', fileStat, syscalls, hret, hfits', hleaves⟩ :=
    handleSyscallReturn_follows (c := ⟨call, stop⟩) hholds hfits hhandled hpermitted hexec
      hseen.1 hseen.2
  have hret : handleSyscallReturn _ stop (Trace.syscall call) = _ := hret
  have hexec : sysno (Completed.sc ⟨call, stop⟩) ≠ .SYS_execve := hexec
  have hkernel : s.kernel.step (.syscallReturn tracee stop (ofFdTable t')) =
      ⟨s.family.files, s.family.nextFiles, Function.update s.tables k (ofFdTable t'),
        Function.update s.calls tracee none⟩ := by
    simp only [Processes.step, show s.kernel.calls tracee = some call from hcall,
      Option.elim_some, Processes.complete, if_neg hexec, kernel_setTable hk]
    rfl
  rw [hleaves]
  refine ⟨_, by simp only [step, hcall, htracer, ok_bind, hret, hkernel]; rfl, ?_⟩
  exact h.handled hid hk (show tmps.SameRefs tmps from ⟨rfl, rfl, rfl⟩) hfits' rfl rfl

/-- **An `execve` returns.** -/
theorem Follows.execveReturn (h : s.Follows) {call stop : Stop}
    (hproceeds : s.family.Proceeds tracee) (hcall : s.calls tracee = some call)
    (hpermitted : Completed.Permitted ⟨call, stop⟩ (s.kernel.table tracee))
    (hexec : sysno (Trace.syscall call) = .SYS_execve) :
    ∃ s', s.step (.syscallReturn tracee stop
        (Completed.leaves ⟨call, stop⟩ (s.kernel.table tracee))) = .ok s' ∧ s'.Follows := by
  obtain ⟨tmps, hid⟩ := h.family.registered tracee hproceeds.live hproceeds.registered
  obtain ⟨k, hk⟩ := Option.isSome_iff_exists.mp hproceeds.live
  obtain ⟨t, htracer, hholds, hfits, hagree⟩ := h.tracer hid hk
  have hexec : sysno (Completed.sc ⟨call, stop⟩) = .SYS_execve := hexec
  rw [Completed.leaves, if_pos hexec, kernel_table hk, hagree, execve_ofFdTable]
  obtain ⟨family, hstep, hfamily⟩ := h.family.execve hproceeds
  obtain ⟨w, hreturn, hworld⟩ := bind_eq_ok.mp hstep
  obtain rfl := Except.ok.inj hworld
  have hcontents := fun q => h.family.world.execveReturn_contents hid hreturn
    (h.family.alone hid hproceeds.children q)
  simp only [Iotrace.execveReturn, threadTmpsLookup, hid] at hreturn
  obtain ⟨⟨heap, tmps'⟩, hexecve, hw⟩ := bind_eq_ok.mp hreturn
  obtain rfl := Except.ok.inj hw
  obtain ⟨syscalls, hret⟩ := handleSyscallReturn_execve (c := ⟨call, stop⟩)
    (s := ⟨s.family.world.process.heap, tmps, (s.stats tracee).fileStatTable,
      (s.stats tracee).syscallTable⟩) hpermitted.timed.ret hexec
  rw [hexecve] at hret
  have hret : handleSyscallReturn _ stop (Trace.syscall call) = _ := hret
  have hkernel : s.kernel.step (.syscallReturn tracee stop (ofFdTable (fdTableRemoveCloexec t))) =
      ⟨Function.update s.family.files tracee (some s.family.nextFiles), s.family.nextFiles + 1,
        Function.update s.tables s.family.nextFiles (ofFdTable (fdTableRemoveCloexec t)),
        Function.update s.calls tracee none⟩ := by
    simp only [Processes.step, show s.kernel.calls tracee = some call from hcall,
      Option.elim_some, Processes.complete, if_pos hexec]
    rfl
  refine ⟨_, by simp only [step, hcall, htracer, ok_bind, hret, hkernel]; rfl, hfamily,
    fun p k' hp => ?_⟩
  have hp : Function.update s.family.files tracee (some s.family.nextFiles) p = some k' := hp
  rw [Function.update_apply] at hp
  show ∃ t', World.contents ⟨⟨heap, _⟩, s.family.world.started⟩ p = some t' ∧ t'.Fits ∧
    Function.update s.tables s.family.nextFiles _ k' = ofFdTable t'
  rw [hcontents]
  split_ifs at hp ⊢ with hne
  · obtain rfl := Option.some.inj hp
    have ht : World.contents s.family.world tracee = some t :=
      (World.contents_of_record hid).trans hholds.table
    refine ⟨fdTableRemoveCloexec t, ?_, hfits.removeCloexec, Function.update_self _ _ _⟩
    exact congrArg (Option.map fdTableRemoveCloexec) ht
  · rw [Function.update_of_ne (h.family.fresh p k' hp).ne]
    exact h.tables p k' hp

/-- **A tracee exits.** -/
theorem Follows.exit (h : s.Follows) (hproceeds : s.family.Proceeds tracee) :
    ∃ s', s.step (.exit tracee) = .ok s' ∧ s'.Follows := by
  obtain ⟨family, hstep, hfamily⟩ := h.family.exit hproceeds
  obtain rfl := Except.ok.inj hstep
  refine ⟨_, rfl, hfamily, fun p k hp => ?_⟩
  have hp : Function.update s.family.files tracee none p = some k := hp
  rw [Function.update_apply] at hp
  split_ifs at hp
  exact h.tables p k hp

/-- **A tracer thread ends.** -/
theorem Follows.tracerEnd (h : s.Follows) (hscope : s.family.InScope (.tracerEnd tracee)) :
    ∃ s', s.step (.tracerEnd tracee) = .ok s' ∧ s'.Follows := by
  obtain ⟨hdead, tmps, hid⟩ := hscope
  obtain ⟨family, hstep, hfamily⟩ := h.family.tracerEnd hdead hid
  obtain ⟨w, hend, hworld⟩ := bind_eq_ok.mp hstep
  obtain rfl := Except.ok.inj hworld
  have hne : ∀ p, (s.family.files p).isSome → p ≠ tracee := by
    rintro p hp rfl
    rw [hdead] at hp
    cases hp
  have hchildren : ∀ child, s.family.creating child ≠ some tracee := fun child hchild =>
    hne tracee (h.family.parent child tracee hchild).1 rfl
  refine ⟨_, by simp only [step, hstep, ok_bind]; rfl, hfamily, fun p k hp => ?_⟩
  have hp' := hne p (by rw [show s.family.files p = some k from hp]; rfl)
  have hcontents := h.family.world.tracerEnd_contents hid hend hp'
    fun hone => h.family.alone hid hchildren p hone hp'
  obtain ⟨t, ht⟩ := h.tables p k hp
  exact ⟨t, hcontents.trans ht.1, ht.2⟩

/-- The promises about the numbers hold of the events in scope. -/
theorem Sound.regular (h : s.Sound) {e : HandledEvent} (hscope : s.InScope e) : s.Regular e := by
  cases e with
  | create kind parent child rdi K' => exact hscope.1.2.2.2.2
  | register child block =>
      have hstarted := (h.family.started child).mpr hscope
      obtain ⟨data, hdata⟩ := Option.isSome_iff_exists.mp hstarted
      exact ⟨hstarted, h.family.world.unregistered child data hdata⟩
  | syscallCall tracee stop => exact ⟨hscope.1, hscope.2.2.1⟩
  | syscallReturn tracee stop K' => trivial
  | exit tracee => trivial
  | tracerEnd tracee => exact hscope

/-- **One event** keeps the invariant. -/
theorem Sound.step (h : s.Sound) {e : HandledEvent} (hscope : s.InScope e) (hseen : s.Seen e) :
    ∃ s', s.step e = .ok s' ∧ s'.Sound := by
  have hfollows : ∃ s', s.step e = .ok s' ∧ s'.Follows := by
    cases e with
    | create kind parent child rdi K' =>
        obtain ⟨hscope, rfl⟩ := hscope
        exact h.create hscope hseen
    | register child block => exact h.register hscope
    | syscallCall tracee stop => exact h.syscallCall hscope
    | syscallReturn tracee stop K' =>
        obtain ⟨call, hcall, hpermitted, rfl, hproceeds⟩ := hscope
        by_cases hexec : sysno (Trace.syscall call) = .SYS_execve
        · exact h.execveReturn (hproceeds hexec) hcall hpermitted hexec
        · exact h.syscallReturn h.inCalls hcall hpermitted hexec (hseen call hcall)
    | exit tracee => exact h.exit hscope
    | tracerEnd tracee => exact h.tracerEnd hscope
  obtain ⟨s', hstep, hs'⟩ := hfollows
  exact ⟨s', hstep, hs', h.inCalls.step (h.regular hscope) hstep⟩

theorem first_sound {block : ThreadTmps} {w : World} (hmain : mainTracer tracee block = .ok w) :
    (first tracee w).Sound := by
  refine ⟨⟨Family.first_sound hmain, fun p k hp => ?_⟩, fun p stop hp => nomatch hp⟩
  have hp : Function.update (fun _ => none) tracee (some 0) p = some k := hp
  rw [Function.update_apply] at hp
  split_ifs at hp with hp'
  obtain rfl := Except.ok.inj hmain
  refine ⟨fdTableCreate, ?_, fdTableCreate_fits, rfl⟩
  rw [hp']
  show World.contents ⟨⟨_, Finmap.insert tracee _ ∅⟩, ∅⟩ tracee = some fdTableCreate
  rw [World.contents_of_record (Finmap.lookup_insert _)]
  rfl

end Handled

end Iotrace
