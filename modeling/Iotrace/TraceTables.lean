/-
# The descriptors of all tracees

What the tracer has for a live tracee is behind the kernel by the syscalls whose returns
are still to be handled, and by nothing else (`tables_in_step`): performed on it in the
order of the kernel, they give the descriptors that the kernel has, with the same names and
the same flags.  That is so whichever tracees share a table, are handed one or a copy of
one, leave it at an `execve` or exit, however far the handlers are behind, and in whatever
order the events come, as long as syscalls that interfere are handled in order
(`Trace.InOrder`) and the tracer sees what it needs to see (`Trace.Seen`).

`Trace.Sound` is the invariant.  In the view of the handlers, where a syscall has its effect
when its return is handled, the tracer follows the kernel (`Handled.Follows`); the
difference between the two views is the row of actions that are pending.  When a return is
handled, its action is taken out of the row and moved to the front of it
(`Sound.overtake`).
-/

import Iotrace.HandledTables
import Iotrace.Trace

namespace Iotrace

open Kernel Runs RefCount FiniteMap Footprint

/-! ### The handlers do not see the kernel's tables -/

/-- The event with another table that a syscall leaves. -/
def HandledEvent.leaving (K' : Kernel.Table) : HandledEvent → HandledEvent
  | .create kind parent child rdi _ => .create kind parent child rdi K'
  | .syscallReturn tracee stop _ => .syscallReturn tracee stop K'
  | e => e

/-- The tracer next to other tables of the kernel. -/
def Handled.withTables (s : Handled) (tables : ℕ → Kernel.Table) : Handled := { s with tables }

/-- **The handlers work alike** next to any tables of the kernel. -/
theorem Handled.step_withTables {s t : Handled} {K : ℕ → Kernel.Table} {e : HandledEvent}
    (h : (s.withTables K).step e = .ok t) (K' : Kernel.Table) :
    ∃ s', s.step (e.leaving K') = .ok s' ∧ t = s'.withTables t.tables := by
  cases e with
  | create kind parent child rdi K₀ =>
      obtain ⟨family, hfamily, ht⟩ := bind_eq_ok.mp h
      have hfamily : s.family.step (.create kind parent child rdi) = .ok family := hfamily
      obtain rfl := Except.ok.inj ht
      exact ⟨_, by simp only [HandledEvent.leaving, step, hfamily, ok_bind]; rfl, rfl⟩
  | register child block =>
      obtain ⟨family, hfamily, ht⟩ := bind_eq_ok.mp h
      have hfamily : s.family.step (.register child block) = .ok family := hfamily
      obtain rfl := Except.ok.inj ht
      exact ⟨_, by simp only [HandledEvent.leaving, step, hfamily, ok_bind]; rfl, rfl⟩
  | syscallCall tracee stop =>
      obtain ⟨t₀, tmps, htracer, hcall, rfl⟩ := step_syscallCall h
      have htracer : s.tracer tracee = .ok t₀ := htracer
      exact ⟨_, by simp only [HandledEvent.leaving, step, htracer, hcall, ok_bind]; rfl, rfl⟩
  | syscallReturn tracee stop K₀ =>
      cases hcall : s.calls tracee with
      | none =>
          simp only [step, show (s.withTables K).calls tracee = none from hcall] at h
          obtain rfl := Except.ok.inj h
          exact ⟨s, by simp only [HandledEvent.leaving, step, hcall], rfl⟩
      | some call =>
          have hcall' : (s.withTables K).calls tracee = some call := hcall
          obtain ⟨t₀, t', htracer, hreturn, rfl⟩ := step_syscallReturn hcall' h
          have htracer : s.tracer tracee = .ok t₀ := htracer
          refine ⟨_, by
            simp only [HandledEvent.leaving, step, hcall, htracer, hreturn, ok_bind]; rfl, ?_⟩
          simp only [Processes.step, show s.kernel.calls tracee = some call from hcall,
            Option.elim_some, Processes.complete]
          split_ifs <;> rfl
  | exit tracee =>
      obtain ⟨family, hfamily, ht⟩ := bind_eq_ok.mp h
      have hfamily : s.family.step (.exit tracee) = .ok family := hfamily
      obtain rfl := Except.ok.inj ht
      exact ⟨_, by simp only [HandledEvent.leaving, step, hfamily, ok_bind]; rfl, rfl⟩
  | tracerEnd tracee =>
      obtain ⟨family, hfamily, ht⟩ := bind_eq_ok.mp h
      have hfamily : s.family.step (.tracerEnd tracee) = .ok family := hfamily
      obtain rfl := Except.ok.inj ht
      exact ⟨_, by simp only [HandledEvent.leaving, step, hfamily, ok_bind]; rfl, rfl⟩

namespace Trace

/-! ### The invariant -/

/-- In every state the tracer's table of a live tracee, with the syscalls performed on it
whose returns are still to be handled, says what the kernel says; if these change no
descriptor, it says so itself.  Until the return of its `execve` is handled, the table of a
tracee is the one that it had before. -/
def InStep (s : Trace) : Prop :=
  ∀ tracee k, s.handled.family.files tracee = some k →
    ∃ t, s.handled.family.world.contents tracee = some t ∧
      s.handled.tables k = s.tasks.replay k (ofFdTable t) ∧
      (s.tasks.Settled k → s.handled.tables k = ofFdTable t)

/-- A syscall as an action on the table of its tracee. -/
def actionOf (files : CInt → Option ℕ) (p : Performed) : ℕ × Action CInt (Option Descriptor) :=
  ((files p.tracee).getD 0, p.action)

/-- The invariant: next to the tables `K`, in which the syscalls have had their effect whose
returns have been handled, the tracer follows the kernel; and what is pending leads from
there to the tables of the kernel. -/
structure Sound (s : Trace) (K : ℕ → Kernel.Table) : Prop where
  follows : (s.handled.withTables K).Follows
  inCalls : s.InCalls
  pending : (s.pending.map (actionOf s.handled.family.files)).foldlM Action.stepAt K =
    .ok s.handled.tables

variable {s s' : Trace} {K : ℕ → Kernel.Table} {tracee : CInt} {p : Performed}

theorem Sound.handled (h : s.Sound K) : (s.handled.withTables K).Sound :=
  ⟨h.follows, h.inCalls.handled⟩

/-- A tracee that waits for a return is live. -/
theorem Sound.live (h : s.Sound K) (hp : p ∈ s.pending) :
    (s.handled.family.files p.tracee).isSome :=
  (h.inCalls.handled p.tracee _ (h.inCalls.pending p hp)).1

theorem actionOf_live {files : CInt → Option ℕ} {k : ℕ} (hk : files p.tracee = some k) :
    actionOf files p = (k, p.action) := by
  rw [actionOf, hk, Option.getD_some]

/-- The actions on one table are those of the tracees that have it. -/
theorem Sound.filter_pending (h : s.Sound K) (k : ℕ) :
    (s.pending.map (actionOf s.handled.family.files)).filter (fun e => e.1 = k) =
      (s.tasks.pendingOn k).map (actionOf s.handled.family.files) := by
  rw [List.filter_map, Tasks.pendingOn]
  refine congrArg _ (List.filter_congr fun p hp => decide_eq_decide.mpr ?_)
  obtain ⟨k', hk'⟩ := Option.isSome_iff_exists.mp (h.live hp)
  show (actionOf s.handled.family.files p).1 = k ↔ s.handled.family.files p.tracee = some k
  rw [actionOf_live hk', hk', Option.some.injEq]

/-- A settled table is the same in both views. -/
theorem Sound.settled (h : s.Sound K) {k : ℕ} (hsettled : s.tasks.Settled k) :
    s.handled.tables k = K k := by
  refine Action.foldlM_of_no_writes h.pending fun e he hek => ?_
  have he : e ∈ (s.pending.map (actionOf s.handled.family.files)).filter fun e => e.1 = k :=
    List.mem_filter.mpr ⟨he, decide_eq_true hek⟩
  rw [h.filter_pending] at he
  obtain ⟨p, hp, rfl⟩ := List.mem_map.mp he
  exact hsettled p hp

theorem Sound.inStep (h : s.Sound K) : s.InStep := by
  intro tracee k hk
  obtain ⟨t, hcontents, -, hagree⟩ := h.follows.tables tracee k hk
  have hagree : K k = ofFdTable t := hagree
  refine ⟨t, hcontents, ?_, fun hsettled => (h.settled hsettled).trans hagree⟩
  rw [Action.foldlM_apply h.pending k, h.filter_pending, List.foldl_map, hagree]
  rfl

/-! ### The row of pending actions -/

/-- The tables of the other tracees do not change. -/
theorem actionOf_congr {files files' : CInt → Option ℕ} {l : List Performed}
    (h : ∀ p ∈ l, files' p.tracee = files p.tracee) :
    l.map (actionOf files') = l.map (actionOf files) :=
  List.map_congr_left fun p hp => by rw [actionOf, actionOf, h p hp]

/-- **A table is copied** under the next number, when the tables are those of the kernel
where it is copied. -/
theorem Sound.copy (h : s.Sound K) {l : List Performed} (hl : ∀ p ∈ l, p ∈ s.pending)
    {files : CInt → Option ℕ}
    (hfiles : ∀ p ∈ l, files p.tracee = s.handled.family.files p.tracee) {T : ℕ → Kernel.Table}
    (hrun : (l.map (actionOf s.handled.family.files)).foldlM Action.stepAt K = .ok T)
    (copy : Kernel.Table) :
    (l.map (actionOf files)).foldlM Action.stepAt
        (Function.update K s.handled.family.nextFiles copy) =
      .ok (Function.update T s.handled.family.nextFiles copy) := by
  rw [actionOf_congr hfiles]
  refine Action.foldlM_update hrun (fun e he => ?_) copy
  obtain ⟨p, hp, rfl⟩ := List.mem_map.mp he
  obtain ⟨k, hk⟩ := Option.isSome_iff_exists.mp (h.live (hl p hp))
  rw [actionOf_live hk]
  exact (h.follows.family.fresh p.tracee k hk).ne

/-- **The action of a syscall moves to the front** of the row when its return is handled in
order: it is possible in the view of the handlers, and the others follow it. -/
theorem Sound.overtake (h : s.Sound K) (hp : s.tasks.performed tracee = some p) {k : ℕ}
    (hk : s.handled.family.files tracee = some k)
    (horder : s.tasks.InTurn tracee) :
    p.action.Enabled (K k) ∧
      ((s.tasks.others tracee).map (actionOf s.handled.family.files)).foldlM Action.stepAt
        (Function.update K k (p.action.run (K k))) = .ok s.handled.tables := by
  obtain ⟨hmem, htracee⟩ := Tasks.performed_some hp
  have hpk : s.handled.family.files p.tracee = some k := htracee ▸ hk
  obtain ⟨-, l₁, l₂, hsplit, hbefore⟩ := List.find?_eq_some_iff_append.mp hp
  have hsplit : s.pending = l₁ ++ p :: l₂ := hsplit
  have hothers : s.tasks.others tracee = l₁ ++ l₂ := by
    have hnodup := h.inCalls.nodup
    rw [hsplit, List.map_append, List.map_cons, List.nodup_append, List.nodup_cons] at hnodup
    have h₁ : l₁.filter (fun q => q.tracee ≠ tracee) = l₁ :=
      List.filter_eq_self.mpr fun q hq => by simpa using hbefore q hq
    have h₂ : l₂.filter (fun q => q.tracee ≠ tracee) = l₂ :=
      List.filter_eq_self.mpr fun q hq => decide_eq_true fun heq =>
        hnodup.2.1.1 (htracee ▸ heq ▸ List.mem_map_of_mem hq)
    show s.pending.filter (fun q => q.tracee ≠ tracee) = _
    rw [hsplit, List.filter_append, List.filter_cons_of_neg (by simp [htracee]), h₁, h₂]
  have hpendingOn : s.tasks.pendingOn k =
      l₁.filter (fun q => s.handled.family.files q.tracee = some k) ++
        p :: l₂.filter fun q => s.handled.family.files q.tracee = some k := by
    show s.pending.filter (fun q => s.handled.family.files q.tracee = some k) = _
    rw [hsplit, List.filter_append, List.filter_cons_of_pos (by simpa using hpk)]
  have hrun := h.pending
  rw [hsplit, List.map_append, List.map_cons, actionOf_live hpk] at hrun
  have hovertakes : ∀ e ∈ l₁.map (actionOf s.handled.family.files),
      Overtakes Action.stepAt (k, p.action) e := fun e he => Action.overtakes fun hsame => by
    obtain ⟨q, hq, rfl⟩ := List.mem_map.mp he
    obtain ⟨k', hk'⟩ := Option.isSome_iff_exists.mp (h.live (hsplit ▸ List.mem_append_left _ hq))
    rw [actionOf_live hk'] at hsame ⊢
    obtain rfl : k = k' := hsame
    exact horder p k hp hk _ _ hpendingOn q (List.mem_filter.mpr ⟨hq, decide_eq_true hk'⟩)
  obtain ⟨T, hstep, hrest⟩ := foldlM_overtake hovertakes hrun
  obtain ⟨henabled, rfl⟩ := Action.stepAt_ok.mp hstep
  rw [← List.map_append, ← hothers] at hrest
  exact ⟨henabled, hrest⟩

/-! ### One event -/

/-- **The kernel performs a syscall**: its action is added to the row. -/
theorem Sound.perform (h : s.Sound K) {stop : Stop} (hscope : s.InScope (.perform tracee stop)) :
    ∃ s', s.step (.perform tracee stop) = .ok s' ∧ s'.Sound K := by
  refine ⟨_, rfl, h.follows, h.inCalls.step (e := .perform tracee stop) hscope.1 rfl, ?_⟩
  obtain ⟨-, call, hcall, hpermitted⟩ := hscope
  obtain ⟨k, hk⟩ := Option.isSome_iff_exists.mp (h.inCalls.handled tracee call hcall).1
  rw [Handled.kernel_table hk] at hpermitted
  have hperform : s.tasks.perform tracee stop = ⟨{ s.handled.kernel with
      tables := Function.update s.handled.tables k
        ((Completed.kernelEffect ⟨call, stop⟩).apply (s.handled.tables k)) },
      s.pending ++ [⟨tracee, ⟨call, stop⟩, s.handled.tables k⟩]⟩ := by
    rw [Tasks.perform, show s.tasks.processes.calls tracee = some call from hcall,
      ← Handled.kernel_setTable hk, ← Handled.kernel_table hk]
    rfl
  rw [hperform, List.map_append, foldlM_append_ok]
  refine ⟨s.handled.tables, h.pending, foldlM_cons_ok.mpr ⟨_, ?_, rfl⟩⟩
  rw [actionOf_live (p := ⟨tracee, ⟨call, stop⟩, s.handled.tables k⟩) hk]
  exact Action.stepAt_ok.mpr ⟨⟨hpermitted, rfl, fun _ => rfl⟩, rfl⟩

/-- **A handler works,** in both views: what is left to be said is what becomes of the row. -/
theorem Sound.handle (h : s.Sound K) {e : TraceEvent} (hregular : s.Regular e)
    (e' : HandledEvent) (K' : Kernel.Table) (he : s.tasks.handled e = some (e'.leaving K'))
    (hscope : (s.handled.withTables K).InScope e') (hseen : (s.handled.withTables K).Seen e')
    (hpending : ((s.tasks.stillPending e).map
        (actionOf (s.handled.kernel.step (e'.leaving K')).files)).foldlM Action.stepAt
          ((s.handled.withTables K).kernel.step e').tables =
      .ok (s.handled.kernel.step (e'.leaving K')).tables) :
    ∃ s' K₁, s.step e = .ok s' ∧ s'.Sound K₁ := by
  obtain ⟨t, ht, hsound⟩ := h.handled.step hscope hseen
  obtain ⟨handled, hstep, hsame⟩ := Handled.step_withTables ht K'
  have hstep' : s.step e = .ok ⟨handled, s.tasks.stillPending e⟩ := by
    rw [step_of_handled he, hstep]
    rfl
  refine ⟨_, t.tables, hstep', ?_, h.inCalls.step hregular hstep', ?_⟩
  · rw [← hsame]
    exact hsound.toFollows
  · rw [← Handled.kernel_step hstep, ← Handled.kernel_step ht] at hpending
    exact hpending

/-- The promises about the numbers hold of the events in scope. -/
theorem Sound.regular (h : s.Sound K) {e : TraceEvent} (hscope : s.InScope e) : s.Regular e := by
  cases e with
  | create kind parent child rdi => exact hscope.1.2.2.2.2
  | register child block => exact h.handled.regular (e := .register child block) hscope
  | syscallCall tracee stop => exact h.handled.regular (e := .syscallCall tracee stop) hscope
  | perform tracee stop => exact hscope.1
  | tracerEnd tracee => exact h.handled.regular (e := .tracerEnd tracee) hscope
  | syscallReturn | exit => trivial

/-- **A child has been created,** and if it does not share, the tracer copies the table that
the kernel has copied. -/
theorem Sound.create (h : s.Sound K) {kind : Creation} {parent child : CInt} {rdi : CLong}
    (hscope : s.InScope (.create kind parent child rdi))
    (hmeant : Family.FlagsMeant (.create kind parent child rdi))
    (horder : s.InOrder (.create kind parent child rdi)) :
    ∃ s' K₁, s.step (.create kind parent child rdi) = .ok s' ∧ s'.Sound K₁ := by
  have hregular := h.regular hscope
  obtain ⟨hfamily, p, hp, hcreates⟩ := hscope
  obtain ⟨k, hk⟩ := Option.isSome_iff_exists.mp hfamily.1.live
  obtain ⟨⟨-, -, hcopies⟩, -⟩ := h.overtake hp hk horder
  have hbefore : s.tasks.tableBefore parent = p.before := by
    rw [Tasks.tableBefore, hp, Option.elim_some]
  have hk' : (s.handled.withTables K).kernel.table parent = K k := Handled.kernel_table hk
  refine h.handle hregular (.create kind parent child rdi (K k)) p.before
    (by rw [Tasks.handled, hbefore]; rfl) ⟨hfamily, hk'.symm⟩ hmeant ?_
  obtain ⟨hparent, -, hnofiles, -, -⟩ := hfamily
  have hfiles : ∀ p ∈ s.pending, Function.update s.handled.family.files child
      (if kind.Shares rdi then s.handled.family.files parent else
        some s.handled.family.nextFiles) p.tracee = s.handled.family.files p.tracee := by
    intro p hp
    refine Function.update_of_ne ?_ _ _
    rintro heq
    have hlive := h.live hp
    rw [heq, hnofiles] at hlive
    cases hlive
  show (s.pending.map (actionOf (Function.update s.handled.family.files child
      (if kind.Shares rdi then s.handled.family.files parent else
        some s.handled.family.nextFiles)))).foldlM Action.stepAt
    (if kind.Shares rdi then K else Function.update K s.handled.family.nextFiles (K k)) =
    .ok (if kind.Shares rdi then s.handled.tables else
      Function.update s.handled.tables s.handled.family.nextFiles p.before)
  split_ifs with hshares
  · rw [if_pos hshares] at hfiles
    rw [actionOf_congr hfiles]
    exact h.pending
  · rw [if_neg hshares] at hfiles
    rw [← hcopies (hcreates.copiesTable hshares)]
    exact h.copy (fun _ hp => hp) hfiles h.pending (K k)

/-- **A syscall other than `execve` returns.** -/
theorem Sound.syscallReturn (h : s.Sound K) (hp : s.tasks.performed tracee = some p)
    (hexec : sysno p.syscall.sc ≠ .SYS_execve) (hseen : s.Seen (.syscallReturn tracee))
    (horder : s.InOrder (.syscallReturn tracee)) :
    ∃ s' K₁, s.step (.syscallReturn tracee) = .ok s' ∧ s'.Sound K₁ := by
  obtain ⟨hmem, rfl⟩ := Tasks.performed_some hp
  have hcall := h.inCalls.pending p hmem
  obtain ⟨k, hk⟩ := Option.isSome_iff_exists.mp (h.live hmem)
  obtain ⟨henabled, hrun⟩ := h.overtake hp hk horder
  have hk' : (s.handled.withTables K).family.files p.tracee = some k := hk
  have hfiles : ∀ (T : ℕ → Kernel.Table) (K' : Kernel.Table),
      (s.handled.withTables T).kernel.step (.syscallReturn p.tracee p.syscall.ret K') =
        ⟨s.handled.family.files, s.handled.family.nextFiles, Function.update T k K',
          Function.update s.handled.calls p.tracee none⟩ := by
    intro T K'
    have hkT : (s.handled.withTables T).family.files p.tracee = some k := hk
    simp only [Processes.step,
      show (s.handled.withTables T).kernel.calls p.tracee = some p.syscall.call from hcall,
      Option.elim_some, Processes.complete, if_neg hexec, Handled.kernel_setTable hkT]
    rfl
  refine h.handle trivial (.syscallReturn p.tracee p.syscall.ret (p.syscall.leaves (K k)))
    (s.handled.tables k) ?_ ⟨_, hcall, ?_, ?_, fun h' => absurd h' hexec⟩
    (fun call hcall' => ?_) ?_
  · simp only [Tasks.handled, hp, Option.map_some, if_neg hexec, HandledEvent.leaving,
      Option.some.injEq, HandledEvent.syscallReturn.injEq, true_and]
    exact Handled.kernel_table hk
  · rw [Handled.kernel_table hk']
    exact henabled.1
  · rw [Handled.kernel_table hk']
    rfl
  · obtain rfl : p.syscall.call = call := Option.some.inj (hcall.symm.trans hcall')
    exact hseen p hp
  · rw [hfiles K, HandledEvent.leaving, show s.handled.kernel.step _ = _ from
      hfiles s.handled.tables (s.handled.tables k), Function.update_eq_self, Completed.leaves,
      if_neg hexec]
    exact hrun

/-- **An `execve` returns,** and the tracer copies the table that the kernel has copied. -/
theorem Sound.execveReturn (h : s.Sound K) (hp : s.tasks.performed tracee = some p)
    (hexec : sysno p.syscall.sc = .SYS_execve) (hproceeds : s.handled.family.Proceeds tracee)
    (hseen : s.Seen (.syscallReturn tracee)) (horder : s.InOrder (.syscallReturn tracee)) :
    ∃ s' K₁, s.step (.syscallReturn tracee) = .ok s' ∧ s'.Sound K₁ := by
  obtain ⟨hmem, rfl⟩ := Tasks.performed_some hp
  have hcall := h.inCalls.pending p hmem
  obtain ⟨k, hk⟩ := Option.isSome_iff_exists.mp (h.live hmem)
  obtain ⟨henabled, hrun⟩ := h.overtake hp hk horder
  have hk' : (s.handled.withTables K).family.files p.tracee = some k := hk
  have hsame : K k = p.before := henabled.2.2 (Or.inl hexec)
  have hfiles : ∀ (T : ℕ → Kernel.Table) (K' : Kernel.Table),
      (s.handled.withTables T).kernel.step (.syscallReturn p.tracee p.syscall.ret K') =
        ⟨Function.update s.handled.family.files p.tracee (some s.handled.family.nextFiles),
          s.handled.family.nextFiles + 1, Function.update T s.handled.family.nextFiles K',
          Function.update s.handled.calls p.tracee none⟩ := by
    intro T K'
    simp only [Processes.step,
      show (s.handled.withTables T).kernel.calls p.tracee = some p.syscall.call from hcall,
      Option.elim_some, Processes.complete, if_pos hexec]
    rfl
  refine h.handle trivial (.syscallReturn p.tracee p.syscall.ret (p.syscall.leaves (K k)))
    (Kernel.execve (K k)) ?_ ⟨_, hcall, ?_, ?_, fun _ => hproceeds⟩ (fun call hcall' => ?_) ?_
  · simp only [Tasks.handled, hp, Option.map_some, if_pos hexec, HandledEvent.leaving,
      Option.some.injEq, HandledEvent.syscallReturn.injEq, true_and]
    rw [hsame]
  · rw [Handled.kernel_table hk']
    exact henabled.1
  · rw [Handled.kernel_table hk']
    rfl
  · obtain rfl : p.syscall.call = call := Option.some.inj (hcall.symm.trans hcall')
    exact hseen p hp
  · rw [hfiles K, HandledEvent.leaving, show s.handled.kernel.step _ = _ from
      hfiles s.handled.tables (Kernel.execve (K k)), Completed.leaves, if_pos hexec]
    have hnothing : p.action.run (K k) = K k := Completed.kernelEffect_execve hexec (K k)
    rw [hnothing, Function.update_eq_self] at hrun
    refine h.copy (fun q hq => (Tasks.mem_others.mp hq).1) (fun q hq => ?_) hrun _
    exact Function.update_of_ne (Tasks.mem_others.mp hq).2 _ _

/-- **A tracee exits.** -/
theorem Sound.exit (h : s.Sound K) (hscope : s.InScope (.exit tracee)) :
    ∃ s' K₁, s.step (.exit tracee) = .ok s' ∧ s'.Sound K₁ := by
  refine h.handle trivial (.exit tracee) (K 0) rfl hscope.2 trivial ?_
  have hne : ∀ p ∈ s.pending, p.tracee ≠ tracee := fun p hp => Tasks.performed_none hscope.1 hp
  have hothers : s.tasks.others tracee = s.pending :=
    List.filter_eq_self.mpr fun p hp => decide_eq_true (hne p hp)
  show ((s.tasks.others tracee).map (actionOf (Function.update s.handled.family.files tracee
    none))).foldlM Action.stepAt K = .ok s.handled.tables
  rw [hothers, actionOf_congr fun p hp => Function.update_of_ne (hne p hp) _ _]
  exact h.pending

/-- **One event** keeps the invariant. -/
theorem Sound.step (h : s.Sound K) {e : TraceEvent} (hscope : s.InScope e) (hseen : s.Seen e)
    (horder : s.InOrder e) : ∃ s' K₁, s.step e = .ok s' ∧ s'.Sound K₁ := by
  cases e with
  | create kind parent child rdi => exact h.create hscope hseen horder
  | register child block =>
      exact h.handle (h.regular hscope) (.register child block) (K 0) rfl hscope trivial h.pending
  | syscallCall tracee stop =>
      exact h.handle (h.regular hscope) (.syscallCall tracee stop) (K 0) rfl hscope trivial
        h.pending
  | perform tracee stop =>
      obtain ⟨s', hstep, hs'⟩ := h.perform hscope
      exact ⟨s', K, hstep, hs'⟩
  | syscallReturn tracee =>
      obtain ⟨p, hp, hproceeds⟩ := hscope
      by_cases hexec : sysno p.syscall.sc = .SYS_execve
      · exact h.execveReturn hp hexec (hproceeds hexec) hseen horder
      · exact h.syscallReturn hp hexec hseen horder
  | exit tracee => exact h.exit hscope
  | tracerEnd tracee =>
      exact h.handle (h.regular hscope) (.tracerEnd tracee) (K 0) rfl hscope trivial h.pending

theorem first_sound {block : ThreadTmps} {w : World} (hmain : mainTracer tracee block = .ok w) :
    (first tracee w).Sound (Handled.first tracee w).tables :=
  ⟨(Handled.first_sound hmain).toFollows, first_inCalls tracee w, rfl⟩

/-- The step of a run that the tracer can follow. -/
theorem exists_sound_step {e : TraceEvent} (h : ∃ K, s.Sound K)
    (he : (s.InScope e ∧ s.Seen e) ∧ s.InOrder e) (hstep : s.step e = .ok s') :
    ∃ K, s'.Sound K := by
  obtain ⟨K, h⟩ := h
  obtain ⟨s'', K', hstep', hsound⟩ := h.step he.1.1 he.1.2 he.2
  obtain rfl := Except.ok.inj (hstep'.symm.trans hstep)
  exact ⟨K', hsound⟩

/-- **A run** that the tracer can follow reaches its end, and every state has the
invariant. -/
theorem Sound.run (h : s.Sound K) {l : List TraceEvent} (hscope : Along Trace.step InScope s l)
    (hseen : Along Trace.step Seen s l) (horder : Along Trace.step InOrder s l) :
    (∃ s', l.foldlM Trace.step s = .ok s') ∧
      Always Trace.step (fun s => ∃ K, s.Sound K) s l := by
  have hin := (hscope.and hseen).and horder
  refine ⟨?_, hin.always (fun _ _ _ => exists_sound_step) ⟨K, h⟩⟩
  refine Along.run_ok (fun _ _ h => h) (Along.along (Q := fun s e => ∃ s', s.step e = .ok s')
    (fun _ _ _ => exists_sound_step) ?_ hin ⟨K, h⟩)
  rintro s e ⟨K, h⟩ ⟨⟨hscope, hseen⟩, horder⟩
  obtain ⟨s', -, hstep, -⟩ := h.step hscope hseen horder
  exact ⟨s', hstep⟩

end Trace

/-- A completed syscall that took the given time. -/
def Completed.took (c : Completed) (ns : CLong) : Completed :=
  { c with ret := { c.ret with clock := some ⟨0, ns⟩ } }

/-- A `clone` with `CLONE_FILES`, which returns the child 101. -/
def cloneCall : Completed := (Completed.ofRegs 56 0x411 0 0 0 101 fun _ => none).took 7

/-- An `eventfd2` that returns the descriptor 3. -/
def eventfdCall : Completed := (Completed.ofRegs 290 1 0 0 0 3 fun _ => none).took 5

/-- A read of 8 bytes from the descriptor 3. -/
def eventfdRead : Completed := (Completed.ofRegs 0 3 0 8 0 8 fun _ => none).took 30

/-- The entry of an `exit_group`. -/
def exitGroup : Stop := (Completed.ofRegs 231 0 0 0 0 0 fun _ => none).call

/-- A child shares the table of its parent and reads from an event descriptor that the
kernel has given to the parent, before the parent's return is handled. -/
def sharedEventfd : List TraceEvent :=
  [.syscallCall 100 cloneCall.call, .perform 100 cloneCall.ret, .create .clone 100 101 0x411,
    .syscallReturn 100, .register 101 someBlock, .syscallCall 100 eventfdCall.call,
    .perform 100 eventfdCall.ret, .syscallCall 101 eventfdRead.call,
    .perform 101 eventfdRead.ret, .syscallReturn 100, .syscallReturn 101,
    .syscallCall 101 exitGroup, .exit 101, .tracerEnd 101,
    .syscallCall 100 exitGroup, .exit 100, .tracerEnd 100]

/-- The standard streams and the event descriptor. -/
def eventfdTable : Kernel.Table :=
  Function.update (ofFdTable fdTableCreate) 3 (some ⟨EVENTFD, false⟩)

theorem cloneCall_permitted (K : Kernel.Table) : cloneCall.Permitted K :=
  ⟨⟨rfl, rfl⟩, nofun, nofun⟩

theorem eventfdCall_permitted (K : Kernel.Table) : eventfdCall.Permitted K :=
  have hint : (3 : CLong).toInt < 2 ^ 31 := by decide
  ⟨⟨rfl, rfl⟩, fun _ => ⟨⟨rfl, rfl⟩, trivial, hint⟩, nofun⟩

theorem eventfdRead_permitted (K : Kernel.Table) : eventfdRead.Permitted K :=
  ⟨⟨rfl, rfl⟩, nofun, nofun⟩

theorem sharedEventfd_along {w : World} (hmain : mainTracer 100 someBlock = .ok w) :
    Along Trace.step (fun s e => (s.InScope e ∧ s.Seen e) ∧ s.InOrder e) (Trace.first 100 w)
      sharedEventfd := by
  obtain rfl := Except.ok.inj hmain
  have hnone : ∀ (p child : CInt),
      Function.update (Function.update (fun _ => none) 101 (some (100 : CInt))) 101 none child ≠
        some p := by
    intro p child hchild
    simp only [Function.update_apply] at hchild
    split_ifs at hchild
  -- the `clone`, whose child is there before it returns
  refine Along.cons ⟨⟨⟨rfl, rfl, rfl, rfl, trivial⟩, trivial⟩, trivial⟩ rfl ?_
  refine Along.cons ⟨⟨⟨rfl, _, rfl, cloneCall_permitted _⟩, trivial⟩, trivial⟩ rfl ?_
  refine Along.cons ⟨⟨⟨⟨⟨rfl, rfl, nofun⟩, by decide, rfl, rfl, rfl⟩, _, rfl, rfl, rfl⟩,
    fun h => absurd rfl h⟩, Tasks.inTurn_oldest rfl rfl nofun⟩ rfl ?_
  refine Along.cons ⟨⟨⟨_, rfl, nofun⟩, fun p hp => ?_⟩, ?_⟩ rfl ?_
  · obtain rfl := Option.some.inj hp
    exact ⟨trivial, trivial⟩
  · exact Tasks.inTurn_oldest rfl rfl nofun
  refine Along.cons ⟨⟨rfl, trivial⟩, trivial⟩ rfl ?_
  -- the event descriptor, which is read before the return is handled
  refine Along.cons ⟨⟨⟨rfl, rfl, rfl, rfl, trivial⟩, trivial⟩, trivial⟩ rfl ?_
  refine Along.cons ⟨⟨⟨rfl, _, rfl, eventfdCall_permitted _⟩, trivial⟩, trivial⟩ rfl ?_
  refine Along.cons ⟨⟨⟨rfl, rfl, rfl, rfl, trivial⟩, trivial⟩, trivial⟩ rfl ?_
  refine Along.cons ⟨⟨⟨rfl, _, rfl, eventfdRead_permitted _⟩, trivial⟩, trivial⟩ rfl ?_
  refine Along.cons ⟨⟨⟨_, rfl, nofun⟩, fun p hp => ?_⟩, ?_⟩ rfl ?_
  · obtain rfl := Option.some.inj hp
    exact ⟨trivial, trivial⟩
  · refine Tasks.inTurn_oldest rfl rfl fun q hq => ?_
    obtain rfl := List.mem_singleton.mp hq
    decide
  refine Along.cons ⟨⟨⟨_, rfl, nofun⟩, fun p hp => ?_⟩, ?_⟩ rfl ?_
  · obtain rfl := Option.some.inj hp
    exact ⟨trivial, trivial⟩
  · exact Tasks.inTurn_oldest rfl rfl nofun
  -- both exit
  refine Along.cons ⟨⟨⟨rfl, rfl, rfl, rfl, trivial⟩, trivial⟩, trivial⟩ rfl ?_
  refine Along.cons ⟨⟨⟨rfl, rfl, rfl, hnone 101⟩, trivial⟩, trivial⟩ rfl ?_
  refine Along.cons ⟨⟨⟨rfl, _, rfl⟩, trivial⟩, trivial⟩ rfl ?_
  refine Along.cons ⟨⟨⟨rfl, rfl, rfl, rfl, trivial⟩, trivial⟩, trivial⟩ rfl ?_
  refine Along.cons ⟨⟨⟨rfl, rfl, rfl, hnone 100⟩, trivial⟩, trivial⟩ rfl ?_
  exact Along.cons ⟨⟨⟨rfl, _, rfl⟩, trivial⟩, trivial⟩ rfl trivial

end Iotrace
