/-
# What the tracee is restarted with

The calls of `ptrace(PTRACE_SYSCALL)` in `wait_for_syscall` of `src/main.c`, next to
its result: `waitForSyscallTrace` is the list of what one call does, over a list of
the statuses that `waitpid` reports for the tracee and for its new children.
(`Iotrace.WaitLoop` has the result alone; `waitForSyscall_eq` says that it is the one
at the end of the list.)

A tracee is to be restarted with the signal that has stopped it, and the call is to
return for a syscall stop and for the end of the tracee: `Report.due`.  The loop has
one variable for the status of the tracee and for that of a new child, so at a
`clone`, `fork` or `vfork` event it goes on with the status of the child, which is
stopped by `SIGSTOP`; and an event is a stop by `SIGTRAP`, which the last branch takes
for a signal.  The call does what is due if and only if the tracee has no event other
than one at which its new child has been killed (`own_reports_iff`).
-/

import Iotrace.WaitLoop

namespace Iotrace

/-! ### The loop with its restarts -/

/-- What a round of `wait_for_syscall` does. -/
inductive Reaction where
  /-- `ptrace(PTRACE_SYSCALL, tracee, 0, sig)`. -/
  | restart (sig : CInt)
  | returns (value : CInt)
  deriving DecidableEq

/-- The call ends with it. -/
def Reaction.isReturn : Reaction → Bool
  | restart _ => false
  | returns _ => true

/-- The result of the call. -/
def Reaction.value : Reaction → Option CInt
  | restart _ => none
  | returns value => some value

/-- The loop after its first `if`. -/
def react (status : CInt) : Reaction :=
  if isSyscallStop status then
    -- stopped by a syscall
    .returns 0
  else if WIFEXITED status then
    -- error or tracee exited
    .returns 1
  else if WIFSTOPPED status then
    -- signal delivery stop
    .restart (WSTOPSIG status)
  else .restart 0

/-- The loop of `wait_for_syscall` over the rounds of a list, or until it returns. -/
def loopTrace : (status : CInt) → List Wait → List Reaction
  | _, [] => []
  | status, w :: waits =>
    let status := w.statusAfter status
    match react status with
    | .returns value => [.returns value]
    | .restart sig => .restart sig :: loopTrace status waits

/-- `wait_for_syscall`, with the value of its uninitialised `status`. -/
def waitForSyscallTrace (status : CInt) (waits : List Wait) : List Reaction :=
  .restart 0 :: loopTrace status waits

/-- **The result** is the one that the restarts end with, if they do. -/
theorem waitForSyscall_eq (status : CInt) (waits : List Wait) :
    waitForSyscall waits.length status waits =
      ((loopTrace status waits).findSome? Reaction.value).map fun value =>
        (value, waits.drop (loopTrace status waits).length) := by
  induction waits generalizing status with
  | nil => rfl
  | cons w waits ih =>
      rw [List.length_cons, loopTrace]
      cases hstop : isSyscallStop (w.statusAfter status) with
      | true => simp [waitForSyscall_of_stop waits.length hstop, react, hstop, Reaction.value]
      | false =>
          cases hexited : WIFEXITED (w.statusAfter status) with
          | true =>
              simp [waitForSyscall_of_exited waits.length hstop hexited, react, hstop, hexited,
                Reaction.value]
          | false =>
              rw [waitForSyscall_of_other waits.length hstop hexited, ih]
              obtain ⟨sig, hsig⟩ : ∃ sig, react (w.statusAfter status) = .restart sig := by
                simp only [react, hstop, hexited, Bool.false_eq_true, if_false]
                split_ifs
                · exact ⟨_, rfl⟩
                · exact ⟨_, rfl⟩
              simp only [hsig]
              rfl

/-! ### What `waitpid` reports -/

/-- What `waitpid` reports of a process.  The events that `PTRACE_SETOPTIONS` asks for stop
it by `SIGTRAP`. -/
inductive Report where
  | syscallStop
  | signalStop (sig : BitVec 7) (hsig : sig ≠ 0)
  | eventStop (event : Byte) (hevent : event ≠ 0)
  | exited (code : Byte)
  | killed (sig : BitVec 7) (core : Bool) (hsig : sig ≠ 0 ∧ sig ≠ 0x7f)

namespace Report

/-- The wait status. -/
def status : Report → CInt
  | syscallStop => (SIGTRAP ||| 0x80) <<< 8 ||| 0x7f
  | signalStop sig _ => sig.setWidth 32 <<< 8 ||| 0x7f
  | eventStop event _ => event.setWidth 32 <<< 16 ||| SIGTRAP <<< 8 ||| 0x7f
  | exited code => code.setWidth 32 <<< 8
  | killed sig core _ => sig.setWidth 32 ||| if core then 0x80 else 0

/-- The event of a `clone`, `fork` or `vfork`. -/
def createsChild : Report → Bool
  | eventStop event _ =>
    event.setWidth 32 == PTRACE_EVENT_CLONE || event.setWidth 32 == PTRACE_EVENT_FORK ||
      event.setWidth 32 == PTRACE_EVENT_VFORK
  | _ => false

/-- What the loop does with the status. -/
def reaction : Report → Reaction
  | syscallStop => .returns 0
  | signalStop sig _ => .restart (sig.setWidth 32)
  | eventStop _ _ => .restart SIGTRAP
  | exited _ => .returns 1
  | killed _ _ _ => .restart 0

/-- The macros of `sys/wait.h` tell the reports apart, except for events and signals. -/
theorem react_status (r : Report) : react r.status = r.reaction := by
  cases r with
  | syscallStop => rfl
  | signalStop sig hsig =>
      revert sig
      decide +kernel
  | eventStop event hevent =>
      revert event
      decide +kernel
  | exited code =>
      revert code
      decide +kernel
  | killed sig core hsig =>
      revert sig core
      decide +kernel

/-- The first test of the loop finds the events of new children. -/
theorem isCloneEvent_status (r : Report) : isCloneEvent r.status = r.createsChild := by
  cases r with
  | syscallStop => rfl
  | signalStop sig hsig =>
      revert sig
      decide +kernel
  | eventStop event hevent =>
      revert event
      decide +kernel
  | exited code => exact (exited_status code).1
  | killed sig core hsig => exact (killed_status sig core hsig).1

/-! ### What is due -/

/-- The signal of a plain signal stop. -/
def signal : Report → CInt
  | signalStop sig _ => sig.setWidth 32
  | _ => 0

/-- The process has ended. -/
def IsEnd : Report → Prop
  | exited _ | killed _ _ _ => True
  | _ => False

/-- The process has ended by a signal. -/
def IsKilled : Report → Prop
  | killed _ _ _ => True
  | _ => False

/-- The loop restarts with nothing for a killed process only. -/
theorem reaction_eq_restart_zero_iff (r : Report) : r.reaction = .restart 0 ↔ r.IsKilled := by
  cases r with
  | signalStop sig hsig =>
      refine iff_of_false (fun h => hsig ?_) nofun
      have hwidth : sig.setWidth 32 = 0 := Reaction.restart.inj h
      revert sig
      decide +kernel
  | killed => exact iff_of_true rfl trivial
  | syscallStop | eventStop | exited => exact iff_of_false nofun nofun

/-- What is due after a report of the tracee. -/
def due : Report → Reaction
  | syscallStop => .returns 0
  | exited _ => .returns 1
  | r => .restart r.signal

end Report

/-- What may be done after a report of the tracee, or before the first one: it is restarted
with its signal if it has been stopped by one, 1 is returned at its end only, and 0 at a
syscall stop only. -/
def Reaction.Fits (latest : Option Report) : Reaction → Prop
  | restart sig => sig = (latest.map Report.signal).getD 0
  | returns value =>
    value = 0 ∧ latest = some .syscallStop ∨ value = 1 ∧ ∃ r, latest = some r ∧ r.IsEnd

/-! ### Lists up to an element -/

section UpTo

variable {α β : Type}

/-- The elements of a list up to the first that passes the test. -/
def upTo (p : α → Bool) : List α → List α
  | [] => []
  | a :: l => if p a then [a] else a :: upTo p l

/-- Two images of a list are the same up to some element if and only if they are the same
at each element up to there. -/
theorem upTo_map_eq_iff (p : β → Bool) (f g : α → β) (l : List α) :
    upTo p (l.map f) = upTo p (l.map g) ↔ ∀ a ∈ upTo (fun a => p (g a)) l, f a = g a := by
  induction l with
  | nil => simp [upTo]
  | cons a l ih =>
      by_cases hfg : f a = g a
      · cases hp : p (g a) with
        | true => simp [upTo, hfg, hp]
        | false => simp [upTo, hfg, hp, ih]
      · have hmem : a ∈ upTo (fun a => p (g a)) (a :: l) := by
          rw [upTo]
          split_ifs <;> exact List.mem_cons_self
        refine iff_of_false (fun h => hfg ?_) fun h => hfg (h a hmem)
        have hhead : ∀ h : α → β, (upTo p ((a :: l).map h)).head? = some (h a) := fun h => by
          rw [List.map_cons, upTo]
          split_ifs <;> rfl
        have heq := hhead f
        rw [h, hhead g] at heq
        exact (Option.some.inj heq).symm

end UpTo

/-! ### Rounds -/

/-- A round of `wait_for_syscall`: what `waitpid` reports of the tracee; and, asked for after
the event of a new child only, the register `RDI`, the child and what is reported of it. -/
structure Round where
  own : Report
  rdi : CLong
  newChild : CInt
  child : Report

namespace Round

/-- The round, with wait statuses. -/
def wait (w : Round) : Wait := ⟨some w.own.status, w.rdi, w.newChild, some w.child.status⟩

/-- **The condition on a round:** the tracee has no event, or that of a new child which has
been killed. -/
def Quiet (w : Round) : Prop :=
  ∀ event hevent, w.own = .eventStop event hevent →
    w.own.createsChild = true ∧ 0 ≤ w.newChild.toInt ∧ w.child.IsKilled

/-- What is done in a round. -/
def reaction (w : Round) : Reaction :=
  if w.own.createsChild ∧ 0 ≤ w.newChild.toInt then w.child.reaction else w.own.reaction

/-- What `status` held before the round does not matter. -/
theorem react_statusAfter (w : Round) (status : CInt) :
    react (w.wait.statusAfter status) = w.reaction := by
  simp only [wait, Wait.statusAfter, Option.getD_some, Report.isCloneEvent_status, reaction]
  split_ifs
  · exact w.child.react_status
  · exact w.own.react_status

/-- **The loop round by round:** each does what it does by itself, up to the first return. -/
theorem loopTrace_eq (status : CInt) (rounds : List Round) :
    loopTrace status (rounds.map wait) = upTo Reaction.isReturn (rounds.map reaction) := by
  induction rounds generalizing status with
  | nil => rfl
  | cons w rounds ih =>
      rw [List.map_cons, List.map_cons, loopTrace, upTo, react_statusAfter]
      cases w.reaction with
      | restart sig => exact congrArg _ (ih _)
      | returns value => rfl

/-- **A round does what is due** if and only if it meets the condition. -/
theorem reaction_eq_due_iff (w : Round) : w.reaction = w.own.due ↔ w.Quiet := by
  obtain ⟨own, rdi, newChild, child⟩ := w
  cases own with
  | eventStop event hevent =>
      show (if _ then child.reaction else .restart SIGTRAP) = .restart 0 ↔ _
      split_ifs with hchild
      · rw [child.reaction_eq_restart_zero_iff]
        exact ⟨fun hkilled _ _ _ => ⟨hchild.1, hchild.2, hkilled⟩,
          fun hquiet => (hquiet event hevent rfl).2.2⟩
      · refine iff_of_false (by decide) fun hquiet => hchild ?_
        obtain ⟨hcreates, hpid, -⟩ := hquiet event hevent rfl
        exact ⟨hcreates, hpid⟩
  | syscallStop | signalStop | exited | killed =>
      exact iff_of_true rfl fun _ _ => nofun

end Round

/-! ### Calls -/

/-- What is due in a call in which `waitpid` makes these reports of the tracee. -/
def dueTrace (own : List Report) : List Reaction :=
  .restart 0 :: upTo Reaction.isReturn (own.map Report.due)

/-- **A call that looks at its tracee only:** whatever it does fits the latest report of the
tracee, and what it does is a function of these reports. -/
structure OwnReportsOnly (status : CInt) (rounds : List Round) : Prop where
  fits : ∀ x ∈ (none :: rounds.map fun w => some w.own).zip
    (waitForSyscallTrace status (rounds.map Round.wait)), x.2.Fits x.1
  due : waitForSyscallTrace status (rounds.map Round.wait) = dueTrace (rounds.map Round.own)

/-- What is due after a report fits it. -/
theorem Report.due_fits (r : Report) : r.due.Fits (some r) := by
  cases r with
  | syscallStop => exact Or.inl ⟨rfl, rfl⟩
  | exited code => exact Or.inr ⟨rfl, _, rfl, trivial⟩
  | signalStop | eventStop | killed => rfl

/-- What is due fits. -/
theorem dueTrace_fits (own : List Report) :
    ∀ x ∈ (none :: own.map some).zip (dueTrace own), x.2.Fits x.1 := by
  have hloop : ∀ x ∈ (own.map some).zip (upTo Reaction.isReturn (own.map Report.due)),
      x.2.Fits x.1 := by
    induction own with
    | nil => simp
    | cons r own ih =>
        intro x hx
        rw [List.map_cons, List.map_cons, upTo] at hx
        split_ifs at hx
        · simp only [List.zip_cons_cons, List.zip_nil_right, List.mem_singleton] at hx
          rw [hx]
          exact r.due_fits
        · rcases List.mem_cons.mp hx with rfl | hx
          · exact r.due_fits
          · exact ih x hx
  intro x hx
  rcases List.mem_cons.mp hx with rfl | hx
  · rfl
  · exact hloop x hx

/-- **A call looks at its tracee only if and only if every round up to its end meets the
condition.**  This is about all reports of the tracee and of its new children. -/
theorem own_reports_iff (status : CInt) (rounds : List Round) :
    OwnReportsOnly status rounds ↔
      ∀ w ∈ upTo (fun w => w.own.due.isReturn) rounds, w.Quiet := by
  have hdue : waitForSyscallTrace status (rounds.map Round.wait) =
      dueTrace (rounds.map Round.own) ↔
        ∀ w ∈ upTo (fun w => w.own.due.isReturn) rounds, w.Quiet := by
    rw [waitForSyscallTrace, dueTrace, Round.loopTrace_eq, List.map_map, List.cons_inj_right,
      upTo_map_eq_iff]
    exact forall₂_congr fun w _ => w.reaction_eq_due_iff
  refine ⟨fun h => hdue.mp h.due, fun h => ?_⟩
  have heq := hdue.mpr h
  have hfits := dueTrace_fits (rounds.map Round.own)
  rw [List.map_map] at hfits
  refine ⟨?_, heq⟩
  rw [heq]
  exact hfits

/-- A signal is delivered, then a syscall is entered. -/
example : waitForSyscallTrace 0
    [Round.wait ⟨.signalStop 10 (by decide), 0, 0, .syscallStop⟩,
      Round.wait ⟨.syscallStop, 0, 0, .syscallStop⟩] =
    [.restart 0, .restart 10, .returns 0] := by
  decide

/-- A clone event, after which the new child is reported. -/
def cloneRound (child : Report) : Round := ⟨.eventStop 3 (by decide), 0x3d0f00, 102, child⟩

/-- The event of an `execve`. -/
def execRound : Round := ⟨.eventStop 4 (by decide), 0, 0, .exited 0⟩

/-- **A tracee that clones is restarted with the `SIGSTOP` of its child**; a child that has
exited ends the trace of its parent, and an `execve` is restarted with `SIGTRAP`. -/
theorem clone_restarted_with_SIGSTOP :
    waitForSyscallTrace 0 [(cloneRound (.signalStop 19 (by decide))).wait] =
        [.restart 0, .restart 19] ∧
      waitForSyscallTrace 0 [(cloneRound (.exited 0)).wait] = [.restart 0, .returns 1] ∧
      waitForSyscallTrace 0 [execRound.wait] = [.restart 0, .restart SIGTRAP] ∧
      ¬OwnReportsOnly 0 [cloneRound (.signalStop 19 (by decide))] ∧
      ¬OwnReportsOnly 0 [cloneRound (.exited 0)] ∧ ¬OwnReportsOnly 0 [execRound] := by
  refine ⟨by decide, by decide, by decide, fun h => ?_, fun h => ?_, fun h => ?_⟩
  · exact absurd h.due (by decide)
  · exact absurd h.due (by decide)
  · exact absurd h.due (by decide)

end Iotrace
