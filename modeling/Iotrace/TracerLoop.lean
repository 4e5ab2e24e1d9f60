/-
# The loop of a tracer thread

`start_tracer` of `src/main.c` with its handlers, for one tracee: a call of
`wait_for_syscall` and the call handler, another one and the return handler, until one of
the calls says that the tracee has exited; then the statistics are merged into the main
tables.  A round of `wait_for_syscall` comes with what the handlers find if it is a stop
by a syscall: the registers and the memory of the tracee, the clock, and the heap as the
other threads have left it.

Signals, events and group stops lie between the stops by syscalls, and may come at any
point of a syscall.  `tracerLoop_eq` says that they do not put the loop out of step: the
handlers see the stops by syscalls one after the other, in pairs.  The statistics that are
merged are those of the pairs, and nothing of the call that the tracee does not return
from, such as its `exit` (`start_tracer_pairs`).
-/

import Iotrace.SyscallNames
import Iotrace.HandledTrace
import Iotrace.WaitLoop

namespace Iotrace

/-- A round of `wait_for_syscall`, with what there is to be read after it. -/
structure StopRound where
  wait : Wait
  stop : Stop
  heap : Heap

/-- `wait_for_syscall` as in `waitForSyscall`, with the round of the stop that it returns
for, and `none` in its place where it returns 1.  It has no result if it has not returned
after the given rounds. -/
def waitForStop : (status : CInt) → List StopRound → Option (Option StopRound × List StopRound)
  | _, [] => none
  | status, round :: rounds =>
    let status := round.wait.statusAfter status
    if isSyscallStop status then some (some round, rounds)
    else if WIFEXITED status then some (none, rounds)
    else waitForStop status rounds

/-- The loop of `start_tracer`. -/
def tracerLoop : (fuel : ℕ) → (garbage : ℕ → CInt) → List StopRound → Tracer →
    Option (Except Abort Tracer)
  | 0, _, _, _ => none
  | fuel + 1, garbage, rounds, s => do
    -- syscall call
    let (stopped, rounds) ← waitForStop (garbage 0) rounds
    match stopped with
    | none => return .ok s
    | some call =>
      match handleSyscallCall s.tmps call.stop (Trace.syscall call.stop) with
      | .error e => return .error e
      | .ok tmps =>
        -- syscall return
        let (stopped, rounds) ← waitForStop (garbage 1) rounds
        match stopped with
        | none => return .ok { s with tmps }
        | some ret =>
          match handleSyscallReturn { s with heap := ret.heap, tmps } ret.stop
              (Trace.syscall call.stop) with
          | .error e => return .error e
          | .ok s => tracerLoop fuel (fun n => garbage (n + 2)) rounds s

/-- The tables of a tracer thread. -/
def Tracer.statistics (s : Tracer) : Statistics := ⟨s.fileStatTable, s.syscallTable⟩

/-- `start_tracer`, on the main tables: the thread starts with tables of its own. -/
def startTracer (fuel : ℕ) (garbage : ℕ → CInt) (rounds : List StopRound) (heap : Heap)
    (tmps : ThreadTmps) (main : Statistics) : Option (Except Abort Statistics) :=
  (tracerLoop fuel garbage rounds ⟨heap, tmps, fileStatCreate, syscallStatCreate⟩).map fun s =>
    s.map fun s => main.merge s.statistics

/-- The result is the one that `waitForSyscall` has. -/
theorem waitForStop_wait {rounds : List StopRound} {status : CInt} {stopped : Option StopRound}
    {rest : List StopRound} (h : waitForStop status rounds = some (stopped, rest)) {fuel : ℕ}
    (hfuel : rounds.length ≤ fuel) :
    waitForSyscall fuel status (rounds.map StopRound.wait) =
      some (if stopped.isSome then 0 else 1, rest.map StopRound.wait) := by
  induction rounds generalizing fuel status with
  | nil => cases h
  | cons round rounds ih =>
      obtain ⟨n, rfl⟩ : ∃ n, fuel = n + 1 := Nat.exists_eq_add_of_le' (by
        rw [List.length_cons] at hfuel
        omega)
      rw [waitForStop] at h
      rw [List.map_cons]
      cases hstop : isSyscallStop (round.wait.statusAfter status) with
      | true =>
          rw [hstop, if_pos rfl] at h
          cases h
          exact waitForSyscall_of_stop n hstop
      | false =>
          rw [hstop, if_neg Bool.false_ne_true] at h
          cases hexited : WIFEXITED (round.wait.statusAfter status) with
          | true =>
              rw [hexited, if_pos rfl] at h
              cases h
              exact waitForSyscall_of_exited n hstop hexited
          | false =>
              rw [hexited, if_neg Bool.false_ne_true] at h
              rw [waitForSyscall_of_other n hstop hexited]
              exact ih h (Nat.le_of_succ_le_succ hfuel)

/-! ### The stops by syscalls -/

/-- The status of a round in which `waitpid` works. -/
def StopRound.status (round : StopRound) : CInt := round.wait.statusAfter 0

/-- `waitpid` works, and the loop goes on or returns for a stop. -/
structure StopRound.Continues (round : StopRound) : Prop where
  reported : round.wait.status.isSome
  alive : WIFEXITED round.status = false

/-- A stop by a syscall. -/
def StopRound.isStop (round : StopRound) : Bool := isSyscallStop round.status

theorem StopRound.Continues.statusAfter {round : StopRound} (h : round.Continues) (status : CInt) :
    round.wait.statusAfter status = round.status := by
  obtain ⟨st, hst⟩ := Option.isSome_iff_exists.mp h.reported
  simp only [StopRound.status, Wait.statusAfter, hst, Option.getD_some]

/-- What is handled of a row of stops: they are taken in pairs, and of an odd one at the
end only the call. -/
def handleStops : List StopRound → Tracer → Except Abort Tracer
  | [], s => .ok s
  | [call], s => do
    let tmps ← handleSyscallCall s.tmps call.stop (Trace.syscall call.stop)
    .ok { s with tmps }
  | call :: ret :: stops, s => do
    let s ← handleAmong s (ret.heap, ⟨call.stop, ret.stop⟩)
    handleStops stops s

/-- The syscalls of the pairs, with the heaps at their returns. -/
def stopPairs : List StopRound → List (Heap × Completed)
  | call :: ret :: stops => (ret.heap, ⟨call.stop, ret.stop⟩) :: stopPairs stops
  | _ => []

theorem sc_eq_syscall (call ret : Stop) : Completed.sc ⟨call, ret⟩ = Trace.syscall call := rfl

section Loop

variable {last : StopRound} {post : List StopRound}

/-- **A call of `wait_for_syscall`** returns for the next stop by a syscall, and where
there is none, for the exit. -/
theorem waitForStop_eq (hlast : last.wait.Quits) (post : List StopRound) {pre : List StopRound}
    (hpre : ∀ round ∈ pre, round.Continues) (status : CInt) :
    (pre.filter StopRound.isStop = [] ∧
        waitForStop status (pre ++ last :: post) = some (none, post)) ∨
      ∃ stop rest, pre.filter StopRound.isStop = stop :: rest.filter StopRound.isStop ∧
        rest.length < pre.length ∧ (∀ round ∈ rest, round.Continues) ∧
        waitForStop status (pre ++ last :: post) = some (some stop, rest ++ last :: post) := by
  induction pre generalizing status with
  | nil =>
      obtain ⟨hstop, hexited⟩ := hlast status
      refine Or.inl ⟨rfl, ?_⟩
      simp only [List.nil_append, waitForStop, hstop, hexited, Bool.false_eq_true, if_false,
        if_true]
  | cons round pre ih =>
      have hround := hpre round List.mem_cons_self
      have hrest : ∀ r ∈ pre, r.Continues := fun r hr => hpre r (List.mem_cons_of_mem round hr)
      rw [List.cons_append, waitForStop, hround.statusAfter status]
      cases hstop : isSyscallStop round.status with
      | true =>
          refine Or.inr ⟨round, pre, List.filter_cons_of_pos hstop, Nat.lt_succ_self _, hrest, ?_⟩
          rw [if_pos rfl]
      | false =>
          have hfilter : (round :: pre).filter StopRound.isStop = pre.filter StopRound.isStop :=
            List.filter_cons_of_neg (by rw [StopRound.isStop, hstop]; exact Bool.false_ne_true)
          rw [if_neg Bool.false_ne_true, hround.alive, if_neg Bool.false_ne_true, hfilter]
          rcases ih hrest round.status with hnone | ⟨stop, rest, heq, hlt, hcont, hwait⟩
          · exact Or.inl hnone
          · exact Or.inr ⟨stop, rest, heq, Nat.lt_succ_of_lt hlt, hcont, hwait⟩

/-- **The loop handles the stops by syscalls in pairs,** whatever lies between them. -/
theorem tracerLoop_eq (hlast : last.wait.Quits) {pre : List StopRound}
    (hpre : ∀ round ∈ pre, round.Continues) {fuel : ℕ} (hfuel : pre.length < fuel)
    (garbage : ℕ → CInt) (s : Tracer) :
    tracerLoop fuel garbage (pre ++ last :: post) s =
      some (handleStops (pre.filter StopRound.isStop) s) := by
  induction fuel generalizing pre garbage s with
  | zero => omega
  | succ fuel ih =>
      rcases waitForStop_eq hlast post hpre (garbage 0)
        with ⟨hnone, hwait⟩ | ⟨call, rest, hcall, hlt, hcont, hwait⟩
      · rw [hnone]
        simp [tracerLoop, hwait, handleStops]
      rw [hcall]
      rcases waitForStop_eq hlast post hcont (garbage 1)
        with ⟨hnone', hwait'⟩ | ⟨ret, rest', hret, hlt', hcont', hwait'⟩
      · rw [hnone', handleStops]
        cases hhandled : handleSyscallCall s.tmps call.stop (Trace.syscall call.stop) with
        | error e => simp [tracerLoop, hwait, hhandled]
        | ok tmps => simp [tracerLoop, hwait, hwait', hhandled]
      · rw [hret, handleStops, handleAmong, handleCompleted]
        cases hhandled : handleSyscallCall s.tmps call.stop (Trace.syscall call.stop) with
        | error e => simp [tracerLoop, hwait, hhandled, sc_eq_syscall]
        | ok tmps =>
            cases hreturn : handleSyscallReturn { s with heap := ret.heap, tmps } ret.stop
                (Trace.syscall call.stop) with
            | error e => simp [tracerLoop, hwait, hwait', hhandled, hreturn, sc_eq_syscall]
            | ok s' =>
                have hloop := ih hcont' (by omega) (fun n => garbage (n + 2)) s'
                simp [tracerLoop, hwait, hwait', hhandled, hreturn, sc_eq_syscall, hloop]

/-- Of an odd stop at the end nothing enters the statistics. -/
theorem handleStops_statistics {stops : List StopRound} {s s' : Tracer}
    (h : handleStops stops s = .ok s') :
    ∃ s₁, (stopPairs stops).foldlM handleAmong s = .ok s₁ ∧ s'.statistics = s₁.statistics := by
  induction stops, s using handleStops.induct with
  | case1 s =>
      obtain rfl := Except.ok.inj h
      exact ⟨s, rfl, rfl⟩
  | case2 call s =>
      obtain ⟨tmps, -, hs'⟩ := bind_eq_ok.mp h
      obtain rfl := Except.ok.inj hs'
      exact ⟨s, rfl, rfl⟩
  | case3 call ret stops s ih =>
      obtain ⟨s₂, hpair, hrest⟩ := bind_eq_ok.mp h
      obtain ⟨s₁, hrun, hstats⟩ := ih s₂ hrest
      exact ⟨s₁, Runs.foldlM_cons_ok.mpr ⟨s₂, hpair, hrun⟩, hstats⟩

/-- **What a tracer thread merges.**  Let `waitpid` work until a round says that the tracee
has exited.  Whatever the uninitialised variables hold, and whatever signals and events come
between and inside its syscalls, `start_tracer` ends, and does what the handlers do with the
stops by syscalls in pairs, the heap being changed by other threads meanwhile.  If no
handler aborts, what it merges into the main tables are the statistics of these pairs
alone: the syscall that the tracee has not returned from leaves nothing. -/
theorem start_tracer_pairs (hlast : last.wait.Quits) {pre : List StopRound}
    (hpre : ∀ round ∈ pre, round.Continues) {fuel : ℕ} (hfuel : pre.length < fuel)
    (garbage : ℕ → CInt) (heap : Heap) (tmps : ThreadTmps) (main : Statistics) :
    startTracer fuel garbage (pre ++ last :: post) heap tmps main =
        some ((handleStops (pre.filter StopRound.isStop)
          ⟨heap, tmps, fileStatCreate, syscallStatCreate⟩).map fun s =>
            main.merge s.statistics) ∧
      ∀ main', startTracer fuel garbage (pre ++ last :: post) heap tmps main =
          some (.ok main') →
        ∃ s', (stopPairs (pre.filter StopRound.isStop)).foldlM handleAmong
            ⟨heap, tmps, fileStatCreate, syscallStatCreate⟩ = .ok s' ∧
          main' = main.merge s'.statistics := by
  have hloop : startTracer fuel garbage (pre ++ last :: post) heap tmps main =
      some ((handleStops (pre.filter StopRound.isStop)
        ⟨heap, tmps, fileStatCreate, syscallStatCreate⟩).map fun s =>
          main.merge s.statistics) := by
    rw [startTracer, tracerLoop_eq hlast hpre hfuel]
    rfl
  refine ⟨hloop, fun main' hmain => ?_⟩
  rw [hloop] at hmain
  cases hstops : handleStops (pre.filter StopRound.isStop)
      ⟨heap, tmps, fileStatCreate, syscallStatCreate⟩ with
  | error e =>
      rw [hstops] at hmain
      cases hmain
  | ok s =>
      rw [hstops] at hmain
      obtain ⟨s', hrun, hstats⟩ := handleStops_statistics hstops
      refine ⟨s', hrun, ?_⟩
      rw [← hstats]
      exact (Except.ok.inj (Option.some.inj hmain)).symm

end Loop

/-- A round with the given status, at the entry or the return of `c`. -/
def roundAt (status : CInt) (stop : Stop) : StopRound := ⟨stopWith status, stop, Tracer.start.heap⟩

/-- A syscall that a signal interrupts, and one that the tracee does not return from. -/
def interrupted : List StopRound :=
  [roundAt 0x857f (unknownSyscall 4).call, roundAt 0x0a7f (unknownSyscall 4).call,
    roundAt 0x857f (unknownSyscall 4).ret, roundAt 0x857f (unknownSyscall 231).call]

/-- The tracee exits. -/
def exitRound : StopRound := ⟨(Ending.exited 0).wait, (unknownSyscall 231).ret, Tracer.start.heap⟩

theorem start_tracer_pairs_interrupted : ∃ main', startTracer 6 (fun _ => 0x137f)
    (interrupted ++ [exitRound]) Tracer.start.heap Tracer.start.tmps .create = some (.ok main') ∧
      ∃ s', [(Tracer.start.heap, unknownSyscall 4)].foldlM handleAmong Tracer.start = .ok s' ∧
        main' = Statistics.create.merge s'.statistics := by
  have hcontinues : ∀ round ∈ interrupted, round.Continues := by
    intro round hround
    simp only [interrupted, List.mem_cons, List.not_mem_nil, or_false] at hround
    rcases hround with rfl | rfl | rfl | rfl
    all_goals exact ⟨rfl, by decide⟩
  have hexit : exitRound.wait.Quits := Ending.exited_quits 0
  obtain ⟨heq, hmerged⟩ := @start_tracer_pairs exitRound [] hexit interrupted hcontinues 6
    (by decide) (fun _ => 0x137f) Tracer.start.heap Tracer.start.tmps .create
  obtain ⟨main', hmain⟩ : ∃ main', startTracer 6 (fun _ => 0x137f) (interrupted ++ [exitRound])
      Tracer.start.heap Tracer.start.tmps .create = some (.ok main') := ⟨_, heq.trans rfl⟩
  exact ⟨main', hmain, hmerged main' hmain⟩

end Iotrace
