/-
# One thread of a trace

In `Trace.step` the events of all tracees are interleaved; in `src/main.c` each thread runs
the loop of `start_tracer`, and sees the stops of its own tracee only.  The two are the same
(`start_tracer_traced`): where the rounds of the loop show the stops that the tracee has in
the trace (`Trace.stopsOf`), whatever other rounds lie between them, the loop merges into
the main tables what `Trace.step` merges when the thread ends.

`Handled.Shown` is what holds while the thread runs: its loop has handled all stops but a
last one, at the entry of a syscall, whose effect on the record is not in the statistics.
-/

import Iotrace.TraceReport
import Iotrace.TracerLoop

namespace Iotrace

open Kernel Runs RefCount FiniteMap

/-- The tracee whose thread acts.  At the event of a new child it is the parent's, which
changes nothing that the thread keeps for itself. -/
def HandledEvent.thread : HandledEvent → Option CInt
  | .create _ _ _ _ _ => none
  | .register child _ => some child
  | .syscallCall tracee _ | .syscallReturn tracee _ _ => some tracee
  | .exit tracee | .tracerEnd tracee => some tracee

/-- What a stop shows to the handlers. -/
def StopRound.shown (round : StopRound) : Stop × Heap := (round.stop, round.heap)

namespace Handled

/-- The stop of a tracee at an event, with the heap as its thread finds it. -/
def stopOf (s : Handled) (p : CInt) : HandledEvent → List (Stop × Heap)
  | .syscallCall tracee stop | .syscallReturn tracee stop _ =>
    if tracee = p then [(stop, s.family.world.process.heap)] else []
  | _ => []

variable {s s' : Handled} {p : CInt} {e : HandledEvent} {tmps tmps₀ : ThreadTmps}

/-! ### The events of other threads -/

/-- A thread has the record, the statistics and the call that it had. -/
structure SameThread (p : CInt) (s s' : Handled) : Prop where
  record : s'.family.world.process.threadTmpsTable.lookup p =
    s.family.world.process.threadTmpsTable.lookup p
  stats : s'.stats p = s.stats p
  calls : s'.calls p = s.calls p
  files : s'.family.files p = s.family.files p

@[simp] theorem put_stats (s : Handled) (p : CInt) (t : Tracer) (K : Processes) :
    (s.put p t K).stats p = t.statistics :=
  Function.update_self _ _ _

@[simp] theorem put_record (s : Handled) (p : CInt) (t : Tracer) (K : Processes) :
    (s.put p t K).family.world.process.threadTmpsTable.lookup p = some t.tmps :=
  Finmap.lookup_insert _

/-- What a handler of another tracee leaves behind. -/
theorem SameThread.put {tracee : CInt} (hne : p ≠ tracee) (t : Tracer) {K : Processes}
    (hsame : K.files p = s.family.files p ∧ K.calls p = s.calls p) :
    SameThread p s (s.put tracee t K) where
  record := Finmap.lookup_insert_of_ne _ hne
  stats := Function.update_of_ne hne _ _
  calls := hsame.2
  files := hsame.1

/-- **Other threads leave a thread alone,** once it has its record. -/
theorem sameThread (hregular : s.Regular e) (hstep : s.step e = .ok s')
    (hid : s.family.world.process.threadTmpsTable.lookup p = some tmps)
    (hother : e.thread ≠ some p) : SameThread p s s' := by
  cases e with
  | create kind parent child rdi =>
      obtain ⟨world, rfl, hrecs, -⟩ := step_create hstep
      have hne : p ≠ child := by
        rintro rfl
        cases hid.symm.trans hregular
      exact ⟨congrArg (Finmap.lookup p) hrecs, rfl, rfl, Function.update_of_ne hne _ _⟩
  | register child block =>
      have hne : p ≠ child := fun heq => hother (congrArg some heq.symm)
      obtain ⟨data, hdata⟩ := Option.isSome_iff_exists.mp hregular.1
      obtain ⟨world, hfunc, rfl⟩ := step_register hstep
      obtain ⟨tmps', hrecs⟩ := threadFunc_records hdata hfunc
      refine ⟨?_, Function.update_of_ne hne _ _, rfl, rfl⟩
      exact (congrArg (Finmap.lookup p) hrecs).trans (Finmap.lookup_insert_of_ne _ hne)
  | syscallCall tracee stop =>
      have hne : p ≠ tracee := fun heq => hother (congrArg some heq.symm)
      obtain ⟨t, tmps', -, -, rfl⟩ := step_syscallCall hstep
      exact SameThread.put hne _ ⟨rfl, Function.update_of_ne hne _ _⟩
  | syscallReturn tracee stop K' =>
      have hne : p ≠ tracee := fun heq => hother (congrArg some heq.symm)
      cases hcall : s.calls tracee with
      | none =>
          simp only [Handled.step, hcall] at hstep
          obtain rfl := Except.ok.inj hstep
          exact ⟨rfl, rfl, rfl, rfl⟩
      | some call =>
          obtain ⟨t, t', -, -, rfl⟩ := step_syscallReturn hcall hstep
          exact SameThread.put hne _ (complete_files s.kernel hne _ _)
  | exit tracee =>
      have hne : p ≠ tracee := fun heq => hother (congrArg some heq.symm)
      obtain rfl := Except.ok.inj hstep
      exact ⟨rfl, rfl, Function.update_of_ne hne _ _, Function.update_of_ne hne _ _⟩
  | tracerEnd tracee =>
      have hne : p ≠ tracee := fun heq => hother (congrArg some heq.symm)
      obtain ⟨-, tmps', hid'⟩ := hregular
      obtain ⟨world, hend, rfl⟩ := step_tracerEnd hstep
      refine ⟨?_, rfl, rfl, rfl⟩
      exact (congrArg (Finmap.lookup p) (tracerEnd_records hid' hend)).trans
        (Finmap.lookup_erase_ne hne)

/-- An event of another thread shows nothing. -/
theorem stopOf_other (hother : e.thread ≠ some p) : s.stopOf p e = [] := by
  cases e with
  | syscallCall tracee stop | syscallReturn tracee stop K' =>
      exact if_neg fun heq => hother (congrArg some heq)
  | _ => rfl

/-! ### The thread of one tracee -/

/-- The loop of the thread of `p` has the tracer `t` after the pairs that it has handled.
What it has handled besides is nothing, or the entry of the call that the tracee is in,
or was in when it exited. -/
inductive Shown (s : Handled) (p : CInt) (t : Tracer) : List StopRound → Prop where
  | idle : s.family.world.process.threadTmpsTable.lookup p = some t.tmps → s.calls p = none →
      Shown s p t []
  | inCall {round : StopRound} {tmps : ThreadTmps} :
      s.family.world.process.threadTmpsTable.lookup p = some tmps →
      s.calls p = some round.stop ∨ s.family.files p = none →
      handleSyscallCall t.tmps round.stop (Trace.syscall round.stop) = .ok tmps →
      Shown s p t [round]

variable {t : Tracer} {pending new : List StopRound}

theorem Shown.registered (h : s.Shown p t pending) :
    ∃ tmps, s.family.world.process.threadTmpsTable.lookup p = some tmps := by
  cases h with
  | idle hid _ => exact ⟨_, hid⟩
  | inCall hid _ _ => exact ⟨_, hid⟩

theorem Shown.other (h : s.Shown p t pending) (hsame : SameThread p s s') :
    s'.Shown p t pending := by
  cases h with
  | idle hid hcalls => exact .idle (hsame.record.trans hid) (hsame.calls.trans hcalls)
  | inCall hid hcalls hcall =>
      refine .inCall (hsame.record.trans hid) ?_ hcall
      rw [hsame.calls, hsame.files]
      exact hcalls

/-- The stop at the entry or the return of a syscall is one round. -/
theorem shows_stop {stop : Stop}
    (hnew : new.map StopRound.shown = [(stop, s.family.world.process.heap)]) :
    ∃ round, new = [round] ∧ round.stop = stop ∧
      round.heap = s.family.world.process.heap := by
  obtain ⟨round, rfl, hround⟩ := List.map_eq_singleton_iff.mp hnew
  obtain ⟨rfl, hheap⟩ := Prod.mk.inj hround
  exact ⟨round, rfl, rfl, hheap⟩

/-- **One event** of a trace is what the loop of the thread does with the stop that it
shows. -/
theorem Shown.step (h : s.Shown p t pending) (hstats : t.statistics = s.stats p)
    (hcalls : s.InCalls) (hregular : s.Regular e)
    (hreturn : ∀ tracee stop K', e = .syscallReturn tracee stop K' → (s.calls tracee).isSome)
    (hstep : s.step e = .ok s') (hend : e ≠ .tracerEnd p)
    (hnew : new.map StopRound.shown = s.stopOf p e) :
    ∃ t' pending', s'.Shown p t' pending' ∧ t'.statistics = s'.stats p ∧
      ∀ rest, handleStops (pending ++ new ++ rest) t = handleStops (pending' ++ rest) t' := by
  obtain ⟨tmps, hid⟩ := h.registered
  by_cases hother : e.thread = some p
  case neg =>
    have hsame := sameThread hregular hstep hid hother
    rw [stopOf_other hother, List.map_eq_nil_iff] at hnew
    subst hnew
    refine ⟨t, pending, h.other hsame, hstats.trans hsame.stats.symm, fun rest => ?_⟩
    rw [List.append_nil]
  cases e with
  | create kind parent child rdi => cases hother
  | register child block =>
      obtain rfl := Option.some.inj hother
      cases hid.symm.trans hregular.2
  | syscallCall tracee stop =>
      obtain rfl := Option.some.inj hother
      obtain ⟨hlive, hidle⟩ := hregular
      rw [stopOf, if_pos rfl] at hnew
      obtain ⟨round, rfl, rfl, -⟩ := shows_stop hnew
      cases h with
      | inCall hid hbusy hcall =>
          rcases hbusy with hbusy | hdead
          · cases hbusy.symm.trans hidle
          · rw [hdead] at hlive
            cases hlive
      | idle hid hidle =>
          obtain ⟨t₁, tmps', htracer, hcall, rfl⟩ := step_syscallCall hstep
          obtain ⟨tmps₁, hid₁, rfl⟩ := tracer_ok htracer
          obtain rfl := Option.some.inj (hid.symm.trans hid₁)
          refine ⟨t, [round], .inCall (put_record _ _ _ _) (Or.inl ?_) hcall, ?_, fun _ => rfl⟩
          · exact Function.update_self _ _ _
          · rw [put_stats]
            exact hstats
  | syscallReturn tracee stop K' =>
      obtain rfl := Option.some.inj hother
      obtain ⟨call, hpend⟩ := Option.isSome_iff_exists.mp (hreturn _ _ _ rfl)
      rw [stopOf, if_pos rfl] at hnew
      obtain ⟨ret, rfl, rfl, hheap⟩ := shows_stop hnew
      cases h with
      | idle hid hidle => cases hidle.symm.trans hpend
      | @inCall round tmps hid hbusy hcall =>
          have hround : round.stop = call := by
            rcases hbusy with hbusy | hdead
            · exact Option.some.inj (hbusy.symm.trans hpend)
            · have hlive := (hcalls tracee call hpend).1
              rw [hdead] at hlive
              cases hlive
          subst hround
          obtain ⟨t₁, t', htracer, hreturned, rfl⟩ := step_syscallReturn hpend hstep
          obtain ⟨tmps₁, hid₁, rfl⟩ := tracer_ok htracer
          obtain rfl := Option.some.inj (hid.symm.trans hid₁)
          refine ⟨t', [], .idle (put_record _ _ _ _) ?_, (put_stats _ _ _ _).symm, fun rest => ?_⟩
          · exact complete_calls _ _ _
          · show handleStops (round :: ret :: rest) t = handleStops rest t'
            have htracer : t.fileStatTable = (s.stats tracee).fileStatTable ∧
                t.syscallTable = (s.stats tracee).syscallTable :=
              ⟨congrArg Statistics.fileStatTable hstats, congrArg Statistics.syscallTable hstats⟩
            rw [handleStops, handleAmong, handleCompleted, sc_eq_syscall, hcall, ok_bind, hheap,
              htracer.1, htracer.2, hreturned, ok_bind]
  | exit tracee =>
      obtain rfl := Option.some.inj hother
      obtain rfl := Except.ok.inj hstep
      obtain rfl := List.map_eq_nil_iff.mp hnew
      refine ⟨t, pending, ?_, hstats, fun rest => by rw [List.append_nil]⟩
      cases h with
      | idle hid hidle => exact .idle hid (Function.update_self _ _ _)
      | inCall hid hbusy hcall => exact .inCall hid (Or.inr (Function.update_self _ _ _)) hcall
  | tracerEnd tracee =>
      obtain rfl := Option.some.inj hother
      exact absurd rfl hend

/-- What the loop has left to handle does not enter the statistics. -/
theorem Shown.ends (h : s.Shown p t pending) (hstats : t.statistics = s.stats p) :
    ∃ t', handleStops pending t = .ok t' ∧ t'.statistics = s.stats p := by
  cases h with
  | idle hid hidle => exact ⟨t, rfl, hstats⟩
  | @inCall round tmps hid hbusy hcall =>
      refine ⟨{ t with tmps }, ?_, hstats⟩
      rw [handleStops, hcall]
      rfl

end Handled

namespace Trace

/-! ### The thread in a run -/

/-- The stop of a tracee at an event.  That the kernel performs a syscall is no stop. -/
def stopOf (s : Trace) (p : CInt) (e : TraceEvent) : List (Stop × Heap) :=
  (s.tasks.handled e).elim [] (s.handled.stopOf p)

/-- The stops of a tracee in a run. -/
def stopsOf (p : CInt) : Trace → List TraceEvent → List (Stop × Heap)
  | _, [] => []
  | s, e :: l =>
    s.stopOf p e ++ match s.step e with
      | .ok s' => s'.stopsOf p l
      | .error _ => []

variable {s s' : Trace} {p : CInt} {e : TraceEvent} {tmps : ThreadTmps} {t : Tracer}
  {pending new : List StopRound}

theorem stopsOf_cons (h : s.step e = .ok s') (l : List TraceEvent) :
    s.stopsOf p (e :: l) = s.stopOf p e ++ s'.stopsOf p l := by
  rw [stopsOf, h]

/-- **One event,** which may be one that no thread sees. -/
theorem shown_step (h : s.handled.Shown p t pending) (hstats : t.statistics = s.handled.stats p)
    (hcalls : s.InCalls) (hregular : s.Regular e) (hstep : s.step e = .ok s')
    (hend : e ≠ .tracerEnd p) (hnew : new.map StopRound.shown = s.stopOf p e) :
    ∃ t' pending', s'.handled.Shown p t' pending' ∧ t'.statistics = s'.handled.stats p ∧
      ∀ rest, handleStops (pending ++ new ++ rest) t = handleStops (pending' ++ rest) t' := by
  have hsilent : ∀ s₁ : Handled, s₁.Shown p t pending → t.statistics = s₁.stats p →
      s.tasks.handled e = none → ∃ t' pending', s₁.Shown p t' pending' ∧
        t'.statistics = s₁.stats p ∧
          ∀ rest, handleStops (pending ++ new ++ rest) t = handleStops (pending' ++ rest) t' := by
    intro s₁ hshown hstats₁ hnone
    rw [stopOf, hnone, Option.elim_none, List.map_eq_nil_iff] at hnew
    subst hnew
    exact ⟨t, pending, hshown, hstats₁, fun rest => by rw [List.append_nil]⟩
  rcases step_cases hstep with ⟨tracee, stop, rfl, rfl⟩ | ⟨e', handled, he, hhandled, rfl⟩ |
    ⟨⟨tracee, rfl, hnone⟩, rfl⟩
  · refine hsilent _ ?_ hstats rfl
    cases h with
    | idle hid hidle => exact .idle hid hidle
    | inCall hid hbusy hcall => exact .inCall hid hbusy hcall
  · rw [stopOf, he, Option.elim_some] at hnew
    refine h.step hstats hcalls.handled (hregular.handled he) ?_ hhandled ?_ hnew
    · rintro tracee stop K' rfl
      cases e with
      | syscallReturn tracee =>
          obtain ⟨q, hq, heq⟩ := Option.map_eq_some_iff.mp he
          obtain ⟨hmem, rfl⟩ := Tasks.performed_some hq
          cases heq
          rw [hcalls.pending q hmem]
          rfl
      | _ => cases he
    · rintro rfl
      cases e with
      | tracerEnd tracee =>
          cases he
          exact hend rfl
      | syscallReturn tracee =>
          obtain ⟨q, -, heq⟩ := Option.map_eq_some_iff.mp he
          cases heq
      | _ => cases he
  · exact hsilent _ h hstats (congrArg (Option.map _) hnone)

/-- **A run** of the trace is what the loop does with the stops that it shows. -/
theorem shown_run {stops : List StopRound} (h : s.handled.Shown p t pending)
    (hstats : t.statistics = s.handled.stats p) (hcalls : s.InCalls) {l : List TraceEvent}
    (hregular : Along Trace.step Regular s l) (hrun : l.foldlM Trace.step s = .ok s')
    (hend : TraceEvent.tracerEnd p ∉ l) (hstops : stops.map StopRound.shown = s.stopsOf p l) :
    ∃ t', handleStops (pending ++ stops) t = .ok t' ∧ t'.statistics = s'.handled.stats p := by
  induction l generalizing s t pending stops with
  | nil =>
      obtain rfl := Except.ok.inj hrun
      obtain rfl := List.map_eq_nil_iff.mp hstops
      rw [List.append_nil]
      exact h.ends hstats
  | cons e l ih =>
      obtain ⟨s₁, hstep, hrun⟩ := foldlM_cons_ok.mp hrun
      rw [stopsOf_cons hstep] at hstops
      obtain ⟨new, rest, rfl, hnew, hrest⟩ := List.map_eq_append_iff.mp hstops
      obtain ⟨t₁, pending₁, hshown, hstats₁, hhandle⟩ := shown_step h hstats hcalls hregular.1
        hstep (fun heq => hend (heq ▸ List.mem_cons_self)) hnew
      rw [← List.append_assoc, hhandle]
      exact ih hshown hstats₁ (hcalls.step hregular.1 hstep) (hregular.2 _ hstep) hrun
        (fun hmem => hend (List.mem_cons_of_mem e hmem)) hrest

/-! ### The start of a thread -/

/-- The thread of a tracee has just started: that of the first one at the start of the
trace, and that of a child when it has its record. -/
def Starts (tracee p : CInt) (l : List TraceEvent) : Prop :=
  l = [] ∧ p = tracee ∨ ∃ l₀ block, l = l₀ ++ [.register p block]

/-- The tracees are in their syscalls in every state of a run. -/
theorem inCalls_run {l : List TraceEvent} (h : s.InCalls)
    (hregular : Along Trace.step Regular s l) (hrun : l.foldlM Trace.step s = .ok s') :
    s'.InCalls :=
  (hregular.always (fun _ _ _ h hregular hstep => InCalls.step h hregular hstep) h).last hrun

/-- It has a record, fresh statistics, and has seen no stop. -/
theorem Starts.fresh {tracee : CInt} {block : ThreadTmps} {w : World} {l : List TraceEvent}
    (hmain : mainTracer tracee block = .ok w) (hstarts : Starts tracee p l)
    (hregular : Along Trace.step Regular (first tracee w) l)
    (hrun : l.foldlM Trace.step (first tracee w) = .ok s) :
    s.handled.stats p = .create ∧ s.handled.calls p = none ∧
      ∃ tmps, s.handled.family.world.process.threadTmpsTable.lookup p = some tmps := by
  rcases hstarts with ⟨rfl, rfl⟩ | ⟨l₀, block', rfl⟩
  · obtain rfl := Except.ok.inj hrun
    obtain rfl := Except.ok.inj hmain
    exact ⟨rfl, rfl, _, Finmap.lookup_insert _⟩
  · obtain ⟨s₀, hrun₀, hlast⟩ := foldlM_append_ok.mp hrun
    obtain ⟨s₁, hstep, hnil⟩ := foldlM_cons_ok.mp hlast
    obtain rfl := Except.ok.inj hnil
    obtain ⟨hregular₀, hregular₁⟩ := along_append.mp hregular
    have h₀ := inCalls_run (first_inCalls tracee w) hregular₀ hrun₀
    obtain ⟨hstarted, hnone⟩ := (hregular₁ s₀ hrun₀).1
    obtain ⟨data, hdata⟩ := Option.isSome_iff_exists.mp hstarted
    obtain ⟨handled, hhandled, hs⟩ := bind_eq_ok.mp hstep
    obtain rfl := Except.ok.inj hs
    obtain ⟨world, hfunc, rfl⟩ := Handled.step_register hhandled
    obtain ⟨tmps, hrecs⟩ := threadFunc_records hdata hfunc
    refine ⟨Function.update_self _ _ _, ?_, tmps, ?_⟩
    · show s₀.handled.calls p = none
      by_contra hbusy
      obtain ⟨call, hcall⟩ := Option.ne_none_iff_exists'.mp hbusy
      obtain ⟨-, tmps₀, tmps₁, hid, -⟩ := h₀.handled p call hcall
      cases hid.symm.trans hnone
    · show world.process.threadTmpsTable.lookup p = some tmps
      rw [hrecs, Finmap.lookup_insert]

end Trace

section Thread

variable {last : StopRound} {post : List StopRound}

/-- **The loop of a thread and the trace agree.**  Take any run of the trace that does not
abort, from the start of the thread of `p` to its end, with the events of all other tracees
in between; no number is used again before the record of the former tracee is gone
(`Trace.Regular`).  Let the loop of `start_tracer` go through any rounds of which those that
are stops by syscalls show what the trace shows of `p`, whatever else they hold.  Then it
ends, no handler of it aborts, and the main tables that it leaves are those that the trace
has after `p`'s thread. -/
theorem start_tracer_traced {tracee p : CInt} {block : ThreadTmps} {w : World}
    (hmain : mainTracer tracee block = .ok w) {l₁ l₂ : List TraceEvent}
    (hstarts : Trace.Starts tracee p l₁) (hends : TraceEvent.tracerEnd p ∉ l₂)
    (hregular : Along Trace.step Trace.Regular (Trace.first tracee w) (l₁ ++ l₂))
    {s s₁ s₂ : Trace} (hrun₁ : l₁.foldlM Trace.step (Trace.first tracee w) = .ok s)
    (hrun₂ : l₂.foldlM Trace.step s = .ok s₁) (hend : s₁.step (.tracerEnd p) = .ok s₂)
    (hlast : last.wait.Quits) {pre : List StopRound} (hpre : ∀ round ∈ pre, round.Continues)
    (hshows : (pre.filter StopRound.isStop).map StopRound.shown = s.stopsOf p l₂) {fuel : ℕ}
    (hfuel : pre.length < fuel) (garbage : ℕ → CInt) (heap : Heap) :
    ∃ tmps, threadTmpsLookup s.handled.family.world.process p = some tmps ∧
      startTracer fuel garbage (pre ++ last :: post) heap tmps s₁.handled.main =
        some (.ok s₂.handled.main) := by
  obtain ⟨hregular₁, hregular₂⟩ := along_append.mp hregular
  obtain ⟨hstats, hidle, tmps, hid⟩ := hstarts.fresh hmain hregular₁ hrun₁
  refine ⟨tmps, hid, ?_⟩
  have hshown : s.handled.Shown p ⟨heap, tmps, fileStatCreate, syscallStatCreate⟩ [] :=
    .idle hid hidle
  have hcalls := Trace.inCalls_run (Trace.first_inCalls tracee w) hregular₁ hrun₁
  obtain ⟨t, hhandled, ht⟩ :=
    Trace.shown_run hshown hstats.symm hcalls (hregular₂ s hrun₁) hrun₂ hends hshows
  obtain ⟨handled, hended, hs₂⟩ := bind_eq_ok.mp hend
  obtain rfl := Except.ok.inj hs₂
  obtain ⟨world, -, rfl⟩ := Handled.step_tracerEnd hended
  rw [startTracer, tracerLoop_eq hlast hpre hfuel, ← List.nil_append (pre.filter _), hhandled]
  show some (Except.ok (s₁.handled.main.merge t.statistics)) = _
  rw [ht]

end Thread

/-- A round for each stop by a syscall, with a signal before it. -/
def withSignals (stops : List (Stop × Heap)) : List StopRound :=
  stops.flatMap fun stop =>
    [⟨stopWith 0x0a7f, stop.1, stop.2⟩, ⟨stopWith 0x857f, stop.1, stop.2⟩]

theorem withSignals_continues (stops : List (Stop × Heap)) :
    ∀ round ∈ withSignals stops, round.Continues := by
  intro round hround
  obtain ⟨stop, -, hround⟩ := List.mem_flatMap.mp hround
  simp only [List.mem_cons, List.not_mem_nil, or_false] at hround
  rcases hround with rfl | rfl
  · exact ⟨rfl, show WIFEXITED ((stopWith 0x0a7f).statusAfter 0) = false by decide⟩
  · exact ⟨rfl, show WIFEXITED ((stopWith 0x857f).statusAfter 0) = false by decide⟩

theorem withSignals_shows (stops : List (Stop × Heap)) :
    ((withSignals stops).filter StopRound.isStop).map StopRound.shown = stops := by
  induction stops with
  | nil => rfl
  | cons stop stops ih =>
      have hsignal : StopRound.isStop ⟨stopWith 0x0a7f, stop.1, stop.2⟩ = false :=
        show isSyscallStop ((stopWith 0x0a7f).statusAfter 0) = false by decide
      have hstop : StopRound.isStop ⟨stopWith 0x857f, stop.1, stop.2⟩ = true :=
        show isSyscallStop ((stopWith 0x857f).statusAfter 0) = true by decide
      rw [withSignals, List.flatMap_cons, List.filter_append, List.filter_cons, List.filter_cons,
        hsignal, hstop, if_neg Bool.false_ne_true, if_pos rfl]
      exact congrArg (stop :: ·) ih

/-- The thread of the child in `sharedEventfd` starts. -/
def childStarts : List TraceEvent := sharedEventfd.take 5

/-- It runs until the child has exited. -/
def childRuns : List TraceEvent := (sharedEventfd.drop 5).take 8

theorem start_tracer_traced_eventfd : ∃ w s s₁ s₂ tmps, mainTracer 100 someBlock = .ok w ∧
    childStarts.foldlM Trace.step (Trace.first 100 w) = .ok s ∧
    childRuns.foldlM Trace.step s = .ok s₁ ∧ s₁.step (.tracerEnd 101) = .ok s₂ ∧
      startTracer 7 (fun _ => 0x137f) (withSignals (s.stopsOf 101 childRuns) ++ [exitRound])
        Tracer.start.heap tmps s₁.handled.main = some (.ok s₂.handled.main) := by
  obtain ⟨w, hmain⟩ : ∃ w, mainTracer 100 someBlock = .ok w := ⟨_, rfl⟩
  have hregular := sharedEventfd_regular hmain
  rw [show sharedEventfd = (childStarts ++ childRuns) ++ sharedEventfd.drop 13 from rfl,
    along_append] at hregular
  obtain ⟨s, s₁, s₂, hrun₁, hrun₂, hend, hlength⟩ :
      ∃ s s₁ s₂, childStarts.foldlM Trace.step (Trace.first 100 w) = .ok s ∧
        childRuns.foldlM Trace.step s = .ok s₁ ∧ s₁.step (.tracerEnd 101) = .ok s₂ ∧
          (withSignals (s.stopsOf 101 childRuns)).length < 7 := by
    obtain rfl := Except.ok.inj hmain
    exact ⟨_, _, _, rfl, rfl, rfl, by decide⟩
  obtain ⟨tmps, -, hloop⟩ := @start_tracer_traced exitRound [] 100 101 someBlock w hmain
    childStarts childRuns (Or.inr ⟨sharedEventfd.take 4, someBlock, rfl⟩)
    (by simp [childRuns, sharedEventfd]) hregular.1 s s₁ s₂ hrun₁ hrun₂ hend
    (Ending.exited_quits 0) _ (withSignals_continues _) (withSignals_shows _) 7 hlength
    (fun _ => 0x137f) Tracer.start.heap
  exact ⟨w, s, s₁, s₂, tmps, hmain, hrun₁, hrun₂, hend, hloop⟩

end Iotrace
