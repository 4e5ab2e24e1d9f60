/-
# Waiting for the tracee

`wait_for_syscall` and the loop of `start_tracer` in `src/main.c`.  The wait
status of a stopped, exited or killed process is an `int` that the macros of
`sys/wait.h` take apart; `waitpid` returns `-1` and leaves the variable as it is
where it fails, which nobody checks.

What `waitpid` reports is a script, a list of `Wait`s with nothing but failures
after its end.  The loops take fuel: a result says that they return, and `none`
for every amount of fuel that they do not.

`wait_for_syscall` returns for a syscall stop and for a normal exit.  A death by a
signal and a `waitpid` that fails are neither, and the loop goes on for ever
(`tracer_loop_ends`).
-/

import Iotrace.CTypes

namespace Iotrace

/-! ### Wait statuses -/

/-- `SIGTRAP`. -/
def SIGTRAP : CInt := 5

/-- `PTRACE_EVENT_FORK`. -/
def PTRACE_EVENT_FORK : CInt := 1

/-- `PTRACE_EVENT_VFORK`. -/
def PTRACE_EVENT_VFORK : CInt := 2

/-- `PTRACE_EVENT_CLONE`. -/
def PTRACE_EVENT_CLONE : CInt := 3

/-- `WIFSTOPPED`. -/
def WIFSTOPPED (status : CInt) : Bool := status &&& 0xff == 0x7f

/-- `WSTOPSIG`. -/
def WSTOPSIG (status : CInt) : CInt := (status &&& 0xff00).sshiftRight 8

/-- `WIFEXITED`. -/
def WIFEXITED (status : CInt) : Bool := status &&& 0x7f == 0

/-- The first test of `wait_for_syscall`: the status of a `clone`, `fork` or `vfork` event. -/
def isCloneEvent (status : CInt) : Bool :=
  status.sshiftRight 8 == SIGTRAP ||| PTRACE_EVENT_CLONE <<< 8 ||
  status.sshiftRight 8 == SIGTRAP ||| PTRACE_EVENT_FORK <<< 8 ||
  status.sshiftRight 8 == SIGTRAP ||| PTRACE_EVENT_VFORK <<< 8

/-- The second test: a stop by a syscall. -/
def isSyscallStop (status : CInt) : Bool :=
  WIFSTOPPED status && WSTOPSIG status == SIGTRAP ||| 0x80

/-! ### The loops -/

/-- What one round of `wait_for_syscall` learns: the status that `waitpid(tracee)`
stores, `none` if it fails; and, asked for after an event only, the register
`RDI`, the new child and the status that `waitpid(new_child)` stores. -/
structure Wait where
  status : Option CInt
  rdi : CLong
  newChild : CInt
  childStatus : Option CInt

/-- A round in which every call fails. -/
def Wait.failed : Wait := ⟨none, -1, -1, none⟩

/-- The variable `status` after the first `if` of the loop: the new child is waited
for with the same variable.  `PTRACE_GETEVENTMSG` stores an `unsigned long` where
`new_child` has four bytes; that the four behind it are overwritten is not modelled. -/
def Wait.statusAfter (w : Wait) (status : CInt) : CInt :=
  let status := w.status.getD status
  if isCloneEvent status ∧ 0 ≤ w.newChild.toInt then w.childStatus.getD status else status

/-- The call of `threads_add` in a round of the loop: the child and the flags. -/
def Wait.threadsAdd (w : Wait) (status : CInt) : Option (CInt × CInt) :=
  if isCloneEvent (w.status.getD status) ∧ 0 ≤ w.newChild.toInt then
    some (w.newChild, toCInt w.rdi)
  else none

/-- The loop of `wait_for_syscall`, with the value of `status`: the result, and
what is left of the script. -/
def waitForSyscall : (fuel : ℕ) → (status : CInt) → List Wait → Option (CInt × List Wait)
  | 0, _, _ => none
  | fuel + 1, status, waits =>
    let status := (waits.headD Wait.failed).statusAfter status
    if isSyscallStop status then
      -- stopped by a syscall
      some (0, waits.tail)
    else if WIFEXITED status then
      -- error or tracee exited
      some (1, waits.tail)
    else waitForSyscall fuel status waits.tail

/-- The loop of `start_tracer`, with the handlers left out; `garbage` is what the
calls of `wait_for_syscall` find in their uninitialised `status`. -/
def startTracerLoop : (fuel : ℕ) → (garbage : ℕ → CInt) → List Wait → Option (List Wait)
  | 0, _, _ => none
  | fuel + 1, garbage, waits => do
    -- syscall call
    let (exited, waits) ← waitForSyscall fuel (garbage 0) waits
    if exited ≠ 0 then return waits
    -- syscall return
    let (exited, waits) ← waitForSyscall fuel (garbage 1) waits
    if exited ≠ 0 then return waits
    startTracerLoop fuel (fun n => garbage (n + 2)) waits

section Round

variable {w : Wait} {waits : List Wait} {status : CInt} (fuel : ℕ)

theorem waitForSyscall_of_stop (hstop : isSyscallStop (w.statusAfter status) = true) :
    waitForSyscall (fuel + 1) status (w :: waits) = some (0, waits) := by
  simp only [waitForSyscall, List.headD_cons, List.tail_cons, hstop, if_true]

theorem waitForSyscall_of_exited (hstop : isSyscallStop (w.statusAfter status) = false)
    (hexited : WIFEXITED (w.statusAfter status) = true) :
    waitForSyscall (fuel + 1) status (w :: waits) = some (1, waits) := by
  simp only [waitForSyscall, List.headD_cons, List.tail_cons, hstop, hexited, Bool.false_eq_true,
    if_false, if_true]

theorem waitForSyscall_of_other (hstop : isSyscallStop (w.statusAfter status) = false)
    (hexited : WIFEXITED (w.statusAfter status) = false) :
    waitForSyscall (fuel + 1) status (w :: waits) =
      waitForSyscall fuel (w.statusAfter status) waits := by
  simp only [waitForSyscall, List.headD_cons, List.tail_cons, hstop, hexited, Bool.false_eq_true,
    if_false]

end Round

/-! ### How a tracee ends -/

/-- The end of a tracee. -/
inductive Ending where
  /-- A normal exit. -/
  | exited (code : Byte)
  /-- Death by a signal, with or without a core dump. -/
  | killed (sig : BitVec 7) (core : Bool) (hsig : sig ≠ 0 ∧ sig ≠ 0x7f)
  /-- The tracee can no longer be waited for. -/
  | lost

/-- The last round that learns something. -/
def Ending.wait : Ending → Wait
  | .exited code => { Wait.failed with status := some (code.setWidth 32 <<< 8) }
  | .killed sig core _ =>
    { Wait.failed with status := some (sig.setWidth 32 ||| if core then 0x80 else 0) }
  | .lost => Wait.failed

/-- A stop of the tracee, of whatever kind. -/
def Wait.IsStop (w : Wait) : Prop := ∃ status, w.status = some status ∧ WIFSTOPPED status = true

/-- A stop by an event whose new child has exited when it is waited for. -/
def Wait.ChildExited (w : Wait) : Prop :=
  ∃ status childStatus, w.status = some status ∧ isCloneEvent status = true ∧
    0 ≤ w.newChild.toInt ∧ w.childStatus = some childStatus ∧ WIFEXITED childStatus = true

theorem not_WIFEXITED_of_WIFSTOPPED {status : CInt} (h : WIFSTOPPED status = true) :
    WIFEXITED status = false := by
  have hlow : status &&& 0xff = 0x7f := eq_of_beq h
  have hterm : status &&& 0x7f = (status &&& 0xff) &&& 0x7f := by
    rw [BitVec.and_assoc]
    rfl
  rw [WIFEXITED, hterm, hlow]
  rfl

/-- The status of an exited process ends the loop. -/
theorem exited_status (code : Byte) :
    isCloneEvent (code.setWidth 32 <<< 8) = false ∧
      isSyscallStop (code.setWidth 32 <<< 8) = false ∧
      WIFEXITED (code.setWidth 32 <<< 8) = true := by
  revert code
  decide

/-- The status of a killed process does nothing. -/
theorem killed_status (sig : BitVec 7) (core : Bool) (hsig : sig ≠ 0 ∧ sig ≠ 0x7f) :
    isCloneEvent (sig.setWidth 32 ||| if core then 0x80 else 0) = false ∧
      isSyscallStop (sig.setWidth 32 ||| if core then 0x80 else 0) = false ∧
      WIFEXITED (sig.setWidth 32 ||| if core then 0x80 else 0) = false := by
  revert sig core
  decide

/-! ### Rounds that end the loop -/

/-- A round after which `status` is that of an exited process, and no syscall stop. -/
def Wait.Quits (w : Wait) : Prop :=
  ∀ status, isSyscallStop (w.statusAfter status) = false ∧
    WIFEXITED (w.statusAfter status) = true

theorem not_isSyscallStop_of_WIFEXITED {status : CInt} (h : WIFEXITED status = true) :
    isSyscallStop status = false := by
  cases hstop : isSyscallStop status with
  | false => rfl
  | true =>
      have hstopped : WIFSTOPPED status = true := (Bool.and_eq_true_iff.mp hstop).1
      rw [not_WIFEXITED_of_WIFSTOPPED hstopped] at h
      cases h

theorem Wait.ChildExited.quits {w : Wait} (h : w.ChildExited) : w.Quits := by
  obtain ⟨st, childStatus, hst, hevent, hchild, hstatus, hexited⟩ := h
  intro status
  have hafter : w.statusAfter status = childStatus := by
    simp only [statusAfter, hst, hstatus, Option.getD_some, hevent, hchild, and_self, if_true]
  rw [hafter]
  exact ⟨not_isSyscallStop_of_WIFEXITED hexited, hexited⟩

theorem Ending.exited_quits (code : Byte) : (Ending.exited code).wait.Quits := by
  intro status
  obtain ⟨hevent, hstop, hexited⟩ := exited_status code
  have hafter : (Ending.exited code).wait.statusAfter status = code.setWidth 32 <<< 8 := by
    simp only [Ending.wait, Wait.statusAfter, Option.getD_some, hevent, Bool.false_eq_true,
      false_and, if_false]
  rw [hafter]
  exact ⟨hstop, hexited⟩

/-- **A call of `wait_for_syscall` before such a round returns**: with 1, or with 0
and the round still to come. -/
theorem waitForSyscall_of_quits {w : Wait} (hw : w.Quits) (pre post : List Wait) {fuel : ℕ}
    (hfuel : pre.length < fuel) (status : CInt) :
    (∃ waits, waitForSyscall fuel status (pre ++ w :: post) = some (1, waits)) ∨
      ∃ pre', pre'.length < pre.length ∧
        waitForSyscall fuel status (pre ++ w :: post) = some (0, pre' ++ w :: post) := by
  induction pre generalizing fuel status with
  | nil =>
      obtain ⟨n, rfl⟩ : ∃ n, fuel = n + 1 := ⟨fuel - 1, by omega⟩
      obtain ⟨hstop, hexited⟩ := hw status
      exact Or.inl ⟨post, waitForSyscall_of_exited n hstop hexited⟩
  | cons u pre ih =>
      obtain ⟨n, rfl⟩ : ∃ n, fuel = n + 1 := ⟨fuel - 1, by omega⟩
      have hlen : pre.length < n := by
        rw [List.length_cons] at hfuel
        omega
      have hshorter : pre.length < (u :: pre).length := by
        rw [List.length_cons]
        omega
      rw [List.cons_append]
      cases hstop : isSyscallStop (u.statusAfter status) with
      | true => exact Or.inr ⟨pre, hshorter, waitForSyscall_of_stop n hstop⟩
      | false =>
          cases hexited : WIFEXITED (u.statusAfter status) with
          | true => exact Or.inl ⟨_, waitForSyscall_of_exited n hstop hexited⟩
          | false =>
              rw [waitForSyscall_of_other n hstop hexited]
              rcases ih hlen (u.statusAfter status) with hone | ⟨pre', hlt, hzero⟩
              · exact Or.inl hone
              · exact Or.inr ⟨pre', by omega, hzero⟩

/-- **The loop of `start_tracer` ends** before such a round or with it. -/
theorem startTracerLoop_of_quits {w : Wait} (hw : w.Quits) (pre post : List Wait) {fuel : ℕ}
    (hfuel : pre.length + 1 < fuel) (garbage : ℕ → CInt) :
    ∃ waits, startTracerLoop fuel garbage (pre ++ w :: post) = some waits := by
  induction fuel generalizing pre garbage with
  | zero => omega
  | succ fuel ih =>
      have hlen : pre.length < fuel := by omega
      rcases waitForSyscall_of_quits hw pre post hlen (garbage 0)
        with ⟨waits, hcall⟩ | ⟨pre₁, hlt₁, hcall⟩
      · exact ⟨waits, by simp [startTracerLoop, hcall]⟩
      · have hlen₁ : pre₁.length < fuel := by omega
        rcases waitForSyscall_of_quits hw pre₁ post hlen₁ (garbage 1)
          with ⟨waits, hret⟩ | ⟨pre₂, hlt₂, hret⟩
        · exact ⟨waits, by simp [startTracerLoop, hcall, hret]⟩
        · obtain ⟨waits, hloop⟩ := ih pre₂ (by omega) fun n => garbage (n + 2)
          exact ⟨waits, by simp [startTracerLoop, hcall, hret, hloop]⟩

/-! ### Rounds that keep the loop going -/

/-- A round after which `status` is not that of an exited process if it was not before. -/
def Wait.Waits (w : Wait) : Prop :=
  ∀ status, WIFEXITED status = false → WIFEXITED (w.statusAfter status) = false

theorem Wait.failed_statusAfter (status : CInt) : Wait.failed.statusAfter status = status := by
  have hneg : ¬0 ≤ (-1 : CInt).toInt := by decide
  simp only [failed, statusAfter, Option.getD_none, hneg, and_false, if_false]

theorem Wait.failed_waits : Wait.failed.Waits := by
  intro status h
  rwa [failed_statusAfter]

theorem Wait.IsStop.waits {w : Wait} (h : w.IsStop) (hchild : ¬w.ChildExited) : w.Waits := by
  obtain ⟨st, hst, hstopped⟩ := h
  intro status _
  have hexited := not_WIFEXITED_of_WIFSTOPPED hstopped
  simp only [statusAfter, hst, Option.getD_some]
  split_ifs with hevent
  · cases hstatus : w.childStatus with
    | none => exact hexited
    | some childStatus =>
        cases hchildExited : WIFEXITED childStatus with
        | false => exact hchildExited
        | true =>
            exact absurd ⟨st, childStatus, hst, hevent.1, hevent.2, hstatus, hchildExited⟩ hchild
  · exact hexited

theorem Ending.killed_waits (sig : BitVec 7) (core : Bool) (hsig : sig ≠ 0 ∧ sig ≠ 0x7f) :
    (Ending.killed sig core hsig).wait.Waits := by
  intro status _
  obtain ⟨hevent, -, hexited⟩ := killed_status sig core hsig
  simp only [Ending.wait, Wait.statusAfter, Option.getD_some, hevent, Bool.false_eq_true,
    false_and, if_false]
  exact hexited

/-- **A call of `wait_for_syscall` that meets no exit** does not return, or returns 0. -/
theorem waitForSyscall_of_waits {waits : List Wait} (hw : ∀ w ∈ waits, w.Waits) (fuel : ℕ)
    {status : CInt} (hexited : WIFEXITED status = false) :
    waitForSyscall fuel status waits = none ∨
      ∃ rest, (∀ w ∈ rest, w.Waits) ∧ waitForSyscall fuel status waits = some (0, rest) := by
  induction fuel generalizing status waits with
  | zero => exact Or.inl rfl
  | succ fuel ih =>
      have htail : ∀ w ∈ waits.tail, w.Waits := fun w hmem => hw w (List.mem_of_mem_tail hmem)
      have hhead : (waits.headD Wait.failed).Waits := by
        cases waits with
        | nil => exact Wait.failed_waits
        | cons w waits => exact hw w List.mem_cons_self
      have hafter := hhead status hexited
      simp only [waitForSyscall, hafter, Bool.false_eq_true, if_false]
      split_ifs
      · exact Or.inr ⟨waits.tail, htail, rfl⟩
      · exact ih htail hafter

/-- **The loop of `start_tracer` never ends** if no call meets an exit. -/
theorem startTracerLoop_of_waits {waits : List Wait} (hw : ∀ w ∈ waits, w.Waits) (fuel : ℕ)
    {garbage : ℕ → CInt} (hgarbage : ∀ n, WIFEXITED (garbage n) = false) :
    startTracerLoop fuel garbage waits = none := by
  induction fuel generalizing waits garbage with
  | zero => rfl
  | succ fuel ih =>
      rcases waitForSyscall_of_waits hw fuel (hgarbage 0) with hcall | ⟨rest₁, hrest₁, hcall⟩
      · simp [startTracerLoop, hcall]
      · rcases waitForSyscall_of_waits hrest₁ fuel (hgarbage 1) with hret | ⟨rest₂, hrest₂, hret⟩
        · simp [startTracerLoop, hcall, hret]
        · simp [startTracerLoop, hcall, hret, ih hrest₂ fun n => hgarbage (n + 2)]

/-- The tracee exits normally. -/
def Ending.IsExit : Ending → Prop
  | .exited _ => True
  | _ => False

/-- **The tracer leaves its loop exactly when it sees an exit status.**  After any
stops of whatever kind, and whatever the uninitialised variables hold, the loop
of `start_tracer` ends if and only if the tracee exits normally, or an earlier
wait for a new child has stored the exit status of that child; after a death by a
signal and after a failing `waitpid` it goes on for ever. -/
theorem tracer_loop_ends (stops : List Wait) (hstops : ∀ w ∈ stops, w.IsStop) (ending : Ending) :
    (∀ garbage, ∃ fuel waits,
      startTracerLoop fuel garbage (stops ++ [ending.wait]) = some waits) ↔
      ending.IsExit ∨ ∃ w ∈ stops, w.ChildExited := by
  constructor
  · intro h
    by_contra hno
    rw [not_or] at hno
    obtain ⟨hexit, hchild⟩ := hno
    have hending : ending.wait.Waits := by
      cases ending with
      | exited code => exact absurd trivial hexit
      | killed sig core hsig => exact Ending.killed_waits sig core hsig
      | lost => exact Wait.failed_waits
    have hall : ∀ w ∈ stops ++ [ending.wait], w.Waits := by
      intro w hmem
      rcases List.mem_append.mp hmem with hmem | hmem
      · exact (hstops w hmem).waits fun hw => hchild ⟨w, hmem, hw⟩
      · obtain rfl := List.mem_singleton.mp hmem
        exact hending
    -- A stop by `SIGSTOP`, left on the stack by whatever ran before.
    obtain ⟨fuel, waits, hloop⟩ := h fun _ => 0x137f
    rw [startTracerLoop_of_waits hall fuel fun _ => rfl] at hloop
    cases hloop
  · rintro (hexit | ⟨w, hmem, hchild⟩) garbage
    · cases ending with
      | exited code =>
          obtain ⟨waits, hloop⟩ := startTracerLoop_of_quits (Ending.exited_quits code) stops []
            (Nat.lt_succ_self _) garbage
          exact ⟨_, waits, hloop⟩
      | killed sig core hsig => exact hexit.elim
      | lost => exact hexit.elim
    · obtain ⟨pre, post, rfl⟩ := List.append_of_mem hmem
      obtain ⟨waits, hloop⟩ := startTracerLoop_of_quits hchild.quits pre
        (post ++ [ending.wait]) (Nat.lt_succ_self _) garbage
      rw [List.append_assoc, List.cons_append]
      exact ⟨_, waits, hloop⟩

/-- A stop with a status that is not that of an event. -/
def stopWith (status : CInt) : Wait := { Wait.failed with status := some status }

/-- A clone event, with a child that is stopped by `SIGSTOP`. -/
def cloneEvent (rdi : CLong) (newChild : CInt) : Wait := ⟨some 0x3057f, rdi, newChild, some 0x137f⟩

/-- The first stop, a syscall, a clone and the return from it, then a normal exit. -/
theorem tracer_loop_ends_exit : ∃ fuel waits,
    startTracerLoop fuel (fun _ => 0x137f)
      ([stopWith 0x137f, stopWith 0x857f, cloneEvent 0x3d0f00 102, stopWith 0x857f] ++
        [(Ending.exited 0).wait]) = some waits := by
  refine (tracer_loop_ends _ (fun w hmem => ?_) (.exited 0)).mpr (Or.inl trivial) _
  simp only [List.mem_cons, List.not_mem_nil, or_false] at hmem
  rcases hmem with rfl | rfl | rfl | rfl
  · exact ⟨_, rfl, rfl⟩
  · exact ⟨_, rfl, rfl⟩
  · exact ⟨_, rfl, rfl⟩
  · exact ⟨_, rfl, rfl⟩

/-- **A tracee that is killed** in its first syscall keeps the tracer waiting. -/
theorem tracer_loop_killed : ¬∃ fuel waits,
    startTracerLoop fuel (fun _ => 0x137f)
      ([stopWith 0x857f] ++ [(Ending.killed 9 false (by decide)).wait]) = some waits := by
  rintro ⟨fuel, waits, hloop⟩
  rw [startTracerLoop_of_waits (fun w hmem => ?_) fuel fun _ => rfl] at hloop
  · cases hloop
  · simp only [List.cons_append, List.nil_append, List.mem_cons, List.not_mem_nil,
      or_false] at hmem
    rcases hmem with rfl | rfl
    · refine Wait.IsStop.waits ⟨_, rfl, rfl⟩ ?_
      rintro ⟨_, _, _, -, -, hchild, -⟩
      cases hchild
    · exact Ending.killed_waits 9 false (by decide)

end Iotrace
