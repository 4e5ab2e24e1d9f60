/-
# Waiting for the tracer threads

`threads_add`, `thread_func`, `start_tracer` and `main_tracer` of `src/main.c`, for
what they do to `active_threads`, to the list `threads` and to the main tables.  The
main thread traces the first tracee; every thread that traces may start further
ones; and when its own tracee has ended, the main thread polls `active_threads`
until it reads zero, joins the threads in the list and prints the main tables.

The counter does not count threads: a thread is counted before it is created and
until it has merged its tables, by its creator at first.  What it equals is a total
of weights (`Counted.counter`), in which a thread between `g_atomic_int_inc` and
`g_thread_new` weighs two.  A zero that the main thread reads therefore leaves no
thread that could start another one, whatever the interleaving
(`all_threads_merged`).

The counter is a `guint`, which does not wrap round because the kernel has no more
than `PID_MAX_LIMIT` threads at a time; `g_thread_new` ends the program where it
cannot create one.
-/

import Iotrace.Merge
import Iotrace.Library.Runs
import Iotrace.Library.Weights

namespace Iotrace

open Runs Weights

/-- `PID_MAX_LIMIT` of the kernel on 64-bit machines: no more threads live at a time. -/
def PID_MAX_LIMIT : ℕ := 4194304

/-- Where a tracer thread stands. -/
inductive TracerPhase where
  /-- In the loop of `start_tracer`, which may call `threads_add`. -/
  | tracing
  /-- In `threads_add`, after `g_atomic_int_inc`. -/
  | adding
  /-- In `threads_add`, after `g_thread_new` has returned `thread`. -/
  | prepending (thread : ℕ)
  /-- In `start_tracer`, after `file_state_merge`. -/
  | mergingSyscalls
  /-- After `syscall_stat_merge`; the main thread polls, joins and prints. -/
  | merged
  /-- In `thread_func`, after `g_atomic_int_dec_and_test`. -/
  | finished
  deriving DecidableEq

/-- What the tracer threads share.  Threads are numbered in the order of their
creation, and the main thread is thread 0. -/
structure Tracers where
  pool : List TracerPhase
  /-- `active_threads`. -/
  active : CInt
  /-- `threads`. -/
  threads : List ℕ
  /-- `main_file_stat_table`, and the `file_stat_table` of each thread. -/
  fileStat : Option ℕ → FileStatTable
  /-- `main_syscall_table`, and the `syscall_table` of each thread. -/
  syscalls : Option ℕ → SyscallTable

/-- `main_tracer` calls `start_tracer`. -/
def Tracers.start : Tracers where
  pool := [.tracing]
  active := 0
  threads := []
  fileStat := fun _ => fileStatCreate
  syscalls := fun _ => syscallStatCreate

/-- The steps of thread `i`. -/
inductive TracerStep where
  /-- A return handler records an event of a file. -/
  | recordFile (i : ℕ) (e : FileEvent)
  /-- `syscall_stat_incr`. -/
  | recordSyscall (i : ℕ) (e : SyscallEvent)
  /-- `g_atomic_int_inc` of `threads_add`. -/
  | inc (i : ℕ)
  /-- `g_thread_new` of `threads_add`. -/
  | create (i : ℕ)
  /-- `g_list_prepend` of `threads_add`. -/
  | prepend (i : ℕ)
  /-- `file_state_merge` of `start_tracer`. -/
  | mergeFiles (i : ℕ)
  /-- `syscall_stat_merge` of `start_tracer`. -/
  | mergeSyscalls (i : ℕ)
  /-- `g_atomic_int_dec_and_test` of `thread_func`. -/
  | dec (i : ℕ)

/-- Why a step is not taken. -/
inductive Blocked where
  /-- The thread does not stand before this step. -/
  | elsewhere
  /-- `g_thread_new` cannot create a thread and ends the program. -/
  | noThread

/-- A thread that has not finished. -/
def TracerPhase.live : TracerPhase → ℕ
  | finished => 0
  | _ => 1

/-- One step of some thread. -/
def Tracers.step (s : Tracers) : TracerStep → Except Blocked Tracers
  | .recordFile i e =>
    if s.pool[i]? = some .tracing then
      .ok { s with fileStat := PoolStep.run fileTables s.fileStat (.record i e) }
    else .error .elsewhere
  | .recordSyscall i e =>
    if s.pool[i]? = some .tracing then
      .ok { s with syscalls := PoolStep.run syscallTables s.syscalls (.record i e) }
    else .error .elsewhere
  | .inc i =>
    if s.pool[i]? = some .tracing then
      .ok { s with pool := s.pool.set i .adding, active := s.active + 1 }
    else .error .elsewhere
  | .create i =>
    if s.pool[i]? = some .adding then
      if total TracerPhase.live s.pool < PID_MAX_LIMIT then
        .ok { s with pool := s.pool.set i (.prepending s.pool.length) ++ [.tracing] }
      else .error .noThread
    else .error .elsewhere
  | .prepend i =>
    match s.pool[i]? with
    | some (.prepending thread) =>
      .ok { s with pool := s.pool.set i .tracing, threads := thread :: s.threads }
    | _ => .error .elsewhere
  | .mergeFiles i =>
    if s.pool[i]? = some .tracing then
      .ok { s with
        pool := s.pool.set i .mergingSyscalls
        fileStat := PoolStep.run fileTables s.fileStat (.merge i) }
    else .error .elsewhere
  | .mergeSyscalls i =>
    if s.pool[i]? = some .mergingSyscalls then
      .ok { s with
        pool := s.pool.set i .merged
        syscalls := PoolStep.run syscallTables s.syscalls (.merge i) }
    else .error .elsewhere
  | .dec i =>
    -- The main thread does not return to a `thread_func`.
    if s.pool[i]? = some .merged ∧ i ≠ 0 then
      .ok { s with pool := s.pool.set i .finished, active := s.active - 1 }
    else .error .elsewhere

/-! ### What a step does -/

/-- The thread that takes the step. -/
def TracerStep.owner : TracerStep → ℕ
  | recordFile i _ | recordSyscall i _ | inc i | create i | prepend i | mergeFiles i
  | mergeSyscalls i | dec i => i

/-- What the step does to the tables of files. -/
def TracerStep.fileStep : TracerStep → Option (PoolStep ℕ FileEvent)
  | recordFile i e => some (.record i e)
  | mergeFiles i => some (.merge i)
  | _ => none

/-- What the step does to the tables of syscalls. -/
def TracerStep.syscallStep : TracerStep → Option (PoolStep ℕ SyscallEvent)
  | recordSyscall i e => some (.record i e)
  | mergeSyscalls i => some (.merge i)
  | _ => none

/-- What the step does in a pool of `n` threads: the phase of its thread before and
after, the threads that it creates, what it does to `active_threads`, and the threads
that it puts into the list. -/
inductive Moves (n : ℕ) :
    TracerStep → TracerPhase → TracerPhase → List TracerPhase → (CInt → CInt) → List ℕ → Prop where
  | recordFile {i e} : Moves n (.recordFile i e) .tracing .tracing [] id []
  | recordSyscall {i e} : Moves n (.recordSyscall i e) .tracing .tracing [] id []
  | inc {i} : Moves n (.inc i) .tracing .adding [] (· + 1) []
  | create {i} : Moves n (.create i) .adding (.prepending n) [.tracing] id []
  | prepend {i} (thread) : Moves n (.prepend i) (.prepending thread) .tracing [] id [thread]
  | mergeFiles {i} : Moves n (.mergeFiles i) .tracing .mergingSyscalls [] id []
  | mergeSyscalls {i} : Moves n (.mergeSyscalls i) .mergingSyscalls .merged [] id []
  | dec {i} (h : i ≠ 0) : Moves n (.dec i) .merged .finished [] (· - 1) []

/-- The states before and after a step that moves in this way. -/
structure Stepped (s : Tracers) (a : TracerStep) (s' : Tracers) (p p' : TracerPhase)
    (new : List TracerPhase) (count : CInt → CInt) (pushed : List ℕ) : Prop where
  before : s.pool[a.owner]? = some p
  room : new ≠ [] → total TracerPhase.live s.pool < PID_MAX_LIMIT
  pool : s'.pool = s.pool.set a.owner p' ++ new
  active : s'.active = count s.active
  threads : s'.threads = pushed ++ s.threads
  fileStat : s'.fileStat = a.fileStep.toList.foldl (PoolStep.run fileTables) s.fileStat
  syscalls : s'.syscalls = a.syscallStep.toList.foldl (PoolStep.run syscallTables) s.syscalls

/-- Putting back what is there. -/
theorem set_getElem?_self {pool : List TracerPhase} {i : ℕ} {p : TracerPhase}
    (h : pool[i]? = some p) :
    pool.set i p ++ [] = pool := by
  obtain ⟨hi, rfl⟩ := List.getElem?_eq_some_iff.mp h
  rw [List.append_nil, List.set_getElem_self]

/-- **What a step does,** in full. -/
theorem Tracers.step_ok {s s' : Tracers} {a : TracerStep} (h : s.step a = .ok s') :
    ∃ p p' new count pushed, Moves s.pool.length a p p' new count pushed ∧
      Stepped s a s' p p' new count pushed := by
  have hnone : ∀ q : Prop, ([] : List TracerPhase) ≠ [] → q := fun q hne => absurd rfl hne
  cases a with
  | recordFile i e =>
      rw [step] at h
      split_ifs at h with hp
      obtain rfl := Except.ok.inj h
      exact ⟨_, _, _, _, _, .recordFile,
        ⟨hp, hnone _, (set_getElem?_self hp).symm, rfl, rfl, rfl, rfl⟩⟩
  | recordSyscall i e =>
      rw [step] at h
      split_ifs at h with hp
      obtain rfl := Except.ok.inj h
      exact ⟨_, _, _, _, _, .recordSyscall,
        ⟨hp, hnone _, (set_getElem?_self hp).symm, rfl, rfl, rfl, rfl⟩⟩
  | inc i =>
      rw [step] at h
      split_ifs at h with hp
      obtain rfl := Except.ok.inj h
      exact ⟨_, _, _, _, _, .inc, ⟨hp, hnone _, (List.append_nil _).symm, rfl, rfl, rfl, rfl⟩⟩
  | create i =>
      rw [step] at h
      split_ifs at h with hp hroom
      obtain rfl := Except.ok.inj h
      exact ⟨_, _, _, _, _, .create, ⟨hp, fun _ => hroom, rfl, rfl, rfl, rfl, rfl⟩⟩
  | prepend i =>
      rw [step] at h
      split at h
      · rename_i thread hp
        obtain rfl := Except.ok.inj h
        exact ⟨_, _, _, _, _, .prepend thread,
          ⟨hp, hnone _, (List.append_nil _).symm, rfl, rfl, rfl, rfl⟩⟩
      · cases h
  | mergeFiles i =>
      rw [step] at h
      split_ifs at h with hp
      obtain rfl := Except.ok.inj h
      exact ⟨_, _, _, _, _, .mergeFiles,
        ⟨hp, hnone _, (List.append_nil _).symm, rfl, rfl, rfl, rfl⟩⟩
  | mergeSyscalls i =>
      rw [step] at h
      split_ifs at h with hp
      obtain rfl := Except.ok.inj h
      exact ⟨_, _, _, _, _, .mergeSyscalls,
        ⟨hp, hnone _, (List.append_nil _).symm, rfl, rfl, rfl, rfl⟩⟩
  | dec i =>
      rw [step] at h
      split_ifs at h with hp
      obtain rfl := Except.ok.inj h
      exact ⟨_, _, _, _, _, .dec hp.2,
        ⟨hp.1, hnone _, (List.append_nil _).symm, rfl, rfl, rfl, rfl⟩⟩

section Stepped

variable {s s' : Tracers} {a : TracerStep} {p p' : TracerPhase} {new : List TracerPhase}
  {count : CInt → CInt} {pushed : List ℕ} (h : Stepped s a s' p p' new count pushed)

include h

/-- What a step does to a total weight. -/
theorem Stepped.total (w : TracerPhase → ℕ) :
    Weights.total w s'.pool + w p = Weights.total w s.pool + w p' + Weights.total w new := by
  have hset := total_set (w := w) h.before p'
  rw [h.pool, total_append]
  omega

theorem Stepped.length : s'.pool.length = s.pool.length + new.length := by
  rw [h.pool, List.length_append, List.length_set]

/-- The phase of a thread that was there before. -/
theorem Stepped.phase {i : ℕ} {q : TracerPhase} (hq : s.pool[i]? = some q) :
    s'.pool[i]? = some (if i = a.owner then p' else q) := by
  obtain ⟨hi, -⟩ := List.getElem?_eq_some_iff.mp hq
  rw [h.pool, List.getElem?_append_left (by rw [List.length_set]; exact hi)]
  by_cases howner : i = a.owner
  · rw [if_pos howner, howner, List.getElem?_set_self (howner ▸ hi)]
  · rw [if_neg howner, List.getElem?_set_ne (Ne.symm howner), hq]

end Stepped

/-! ### The counter -/

/-- What a thread contributes to the counter: itself, and the one that it is about to
create. -/
def TracerPhase.weight : TracerPhase → ℕ
  | finished => 0
  | adding => 2
  | _ => 1

/-- A thread that is not in the list yet, although it has been created. -/
def TracerPhase.pending (k : ℕ) : TracerPhase → ℕ
  | prepending thread => if thread = k then 1 else 0
  | _ => 0

/-- **The invariant:** the main thread does not finish, the counter is the total of the
weights of the other threads, and every thread but the main one is in the list or still
to be put into it by its creator. -/
structure Tracers.Counted (s : Tracers) : Prop where
  main : ∃ p, s.pool[0]? = some p ∧ p ≠ .finished
  room : total TracerPhase.live s.pool ≤ PID_MAX_LIMIT
  counter : total TracerPhase.weight s.pool = s.active.toNat + 1
  handles : ∀ k, s.threads.count k + total (TracerPhase.pending k) s.pool =
    if 1 ≤ k ∧ k < s.pool.length then 1 else 0

theorem Tracers.start_counted : Tracers.start.Counted where
  main := ⟨_, rfl, by decide⟩
  room := by decide
  counter := rfl
  handles k := by
    have hk : ¬(1 ≤ k ∧ k < 1) := by omega
    exact (if_neg hk).symm

/-- A thread that does not live weighs nothing, and one that does at most two. -/
theorem TracerPhase.weight_le (p : TracerPhase) : p.weight ≤ 2 * p.live := by
  cases p <;> simp [weight, live]

/-- The counter is far from wrapping round. -/
theorem Tracers.Counted.active_lt {s : Tracers} (h : s.Counted) :
    s.active.toNat < 2 * PID_MAX_LIMIT := by
  have hle := total_le_mul TracerPhase.weight_le s.pool
  have hroom := h.room
  have hcounter := h.counter
  omega

theorem toNat_add_one {x : CInt} (h : x.toNat < 2 * PID_MAX_LIMIT) :
    (x + 1).toNat = x.toNat + 1 := by
  have hone : BitVec.toNat (1 : CInt) = 1 := rfl
  have hlimit : PID_MAX_LIMIT = 4194304 := rfl
  rw [BitVec.toNat_add, hone]
  omega

theorem toNat_sub_one {x : CInt} (h : 0 < x.toNat) : (x - 1).toNat = x.toNat - 1 := by
  have hone : BitVec.toNat (1 : CInt) = 1 := rfl
  have hlt := x.isLt
  rw [BitVec.toNat_sub, hone]
  omega

/-- A thread that decrements the counter finds itself counted. -/
theorem Tracers.Counted.active_pos {s : Tracers} (h : s.Counted) {i : ℕ} (hi : i ≠ 0)
    (hmerged : s.pool[i]? = some .merged) : 0 < s.active.toNat := by
  obtain ⟨q, hq, hfin⟩ := h.main
  have hle := add_le_total (w := TracerPhase.weight) hi hmerged hq
  have hcounter := h.counter
  have hweight : 1 ≤ q.weight := by
    cases q with
    | finished => exact absurd rfl hfin
    | _ => simp [TracerPhase.weight]
  have hone : TracerPhase.merged.weight = 1 := rfl
  omega

section Counted

variable {s s' : Tracers} {a : TracerStep} {p p' : TracerPhase} {new : List TracerPhase}
  {count : CInt → CInt} {pushed : List ℕ} (hs : s.Counted)
  (hmoves : Moves s.pool.length a p p' new count pushed)
  (h : Stepped s a s' p p' new count pushed)

include hs hmoves h

/-- The main thread stays, and does not finish. -/
theorem Tracers.Counted.step_main : ∃ p, s'.pool[0]? = some p ∧ p ≠ .finished := by
  obtain ⟨q, hq, hfin⟩ := hs.main
  refine ⟨_, h.phase hq, ?_⟩
  split_ifs with howner
  · cases hmoves with
    | dec hi => exact absurd howner.symm hi
    | _ => exact TracerPhase.noConfusion
  · exact hfin

/-- The kernel has room for all that live. -/
theorem Tracers.Counted.step_room : total TracerPhase.live s'.pool ≤ PID_MAX_LIMIT := by
  have hlive := h.total TracerPhase.live
  have hroom := hs.room
  cases hmoves with
  | create =>
      have hnew := h.room (List.cons_ne_nil _ _)
      simp only [TracerPhase.live, total_cons, total_nil] at hlive
      omega
  | _ =>
      simp only [TracerPhase.live, total_nil] at hlive
      omega

/-- The counter goes with the weights. -/
theorem Tracers.Counted.step_counter : total TracerPhase.weight s'.pool = s'.active.toNat + 1 := by
  have hweight := h.total TracerPhase.weight
  have hcounter := hs.counter
  rw [h.active]
  cases hmoves with
  | inc =>
      simp only [TracerPhase.weight, total_nil] at hweight
      rw [toNat_add_one hs.active_lt]
      omega
  | dec hi =>
      have hpos := hs.active_pos hi h.before
      simp only [TracerPhase.weight, total_nil] at hweight
      rw [toNat_sub_one hpos]
      omega
  | create =>
      simp only [TracerPhase.weight, total_cons, total_nil] at hweight
      rw [id]
      omega
  | _ =>
      simp only [TracerPhase.weight, total_nil] at hweight
      rw [id]
      omega

/-- Every handle is in the list once, or held by a thread that is to put it there. -/
theorem Tracers.Counted.step_handles (k : ℕ) :
    s'.threads.count k + total (TracerPhase.pending k) s'.pool =
      if 1 ≤ k ∧ k < s'.pool.length then 1 else 0 := by
  have hbefore := hs.handles k
  have hafter := h.total (TracerPhase.pending k)
  rw [h.threads, h.length, List.count_append]
  cases hmoves with
  | create =>
      -- The number of the new thread is that of the threads before it.
      obtain ⟨q, hq, -⟩ := hs.main
      obtain ⟨hpos, -⟩ := List.getElem?_eq_some_iff.mp hq
      simp only [TracerPhase.pending, total_cons, total_nil, List.count_nil, List.length_singleton]
        at hafter ⊢
      split_ifs at hbefore hafter ⊢ <;> omega
  | prepend thread =>
      simp only [TracerPhase.pending, total_nil, List.count_singleton, beq_iff_eq, List.length_nil,
        Nat.add_zero] at hafter ⊢
      split_ifs at hbefore hafter ⊢ <;> omega
  | _ =>
      simp only [TracerPhase.pending, total_nil, List.count_nil, List.length_nil, Nat.add_zero,
        Nat.zero_add] at hafter ⊢
      rw [hafter, hbefore]

end Counted

/-- **Every step keeps the invariant.** -/
theorem Tracers.Counted.step {s s' : Tracers} {a : TracerStep} (hs : s.Counted)
    (h : s.step a = .ok s') : s'.Counted := by
  obtain ⟨p, p', new, count, pushed, hmoves, hstep⟩ := Tracers.step_ok h
  exact ⟨hs.step_main hmoves hstep, hs.step_room hmoves hstep, hs.step_counter hmoves hstep,
    hs.step_handles hmoves hstep⟩

/-! ### The tables -/

/-- The tables of files of this thread have been merged. -/
def TracerPhase.filesMerged : TracerPhase → Bool
  | mergingSyscalls | merged | finished => true
  | _ => false

/-- The tables of syscalls of this thread have been merged. -/
def TracerPhase.syscallsMerged : TracerPhase → Bool
  | merged | finished => true
  | _ => false

/-- Which threads have been merged, `merged` saying in which phases they have. -/
def Tracers.mergedThreads (s : Tracers) (merged : TracerPhase → Bool) (i : ℕ) : Bool :=
  (s.pool[i]?).any merged

/-- The steps on the tables so far are an interleaving on its way. -/
def Tracers.TablesSoFar {E : Type} (s : Tracers) (merged : TracerPhase → Bool)
    (steps : List (PoolStep ℕ E)) : Prop :=
  PoolStep.SoFar (List.range s.pool.length) (s.mergedThreads merged) steps

section Tables

variable {E : Type} {s s' : Tracers} {a : TracerStep} {p p' : TracerPhase} {new : List TracerPhase}
  {count : CInt → CInt} {pushed : List ℕ} (h : Stepped s a s' p p' new count pushed)
  {merged : TracerPhase → Bool} (hnew : ∀ q ∈ new, merged q = false) {steps : List (PoolStep ℕ E)}
  (hsteps : s.TablesSoFar merged steps)

include h

theorem Stepped.mergedThreads_owner (merged : TracerPhase → Bool) :
    s.mergedThreads merged a.owner = merged p := by
  rw [Tracers.mergedThreads, h.before]
  rfl

theorem Stepped.owner_mem : a.owner ∈ List.range s.pool.length := by
  obtain ⟨hlt, -⟩ := List.getElem?_eq_some_iff.mp h.before
  exact List.mem_range.mpr hlt

/-- Threads never leave the pool. -/
theorem Stepped.range_subset : List.range s.pool.length ⊆ List.range s'.pool.length := by
  have hlength := h.length
  intro i hi
  rw [List.mem_range] at hi ⊢
  omega

include hnew

/-- A step changes whether its own thread has been merged. -/
theorem Stepped.mergedThreads_eq (i : ℕ) :
    s'.mergedThreads merged i = Function.update (s.mergedThreads merged) a.owner (merged p') i := by
  cases hq : s.pool[i]? with
  | some q =>
      rw [Tracers.mergedThreads, h.phase hq]
      by_cases howner : i = a.owner
      · rw [if_pos howner, howner, Function.update_self]
        rfl
      · rw [if_neg howner, Function.update_of_ne howner, Tracers.mergedThreads, hq]
  | none =>
      have howner : i ≠ a.owner := fun howner => by
        rw [howner, h.before] at hq
        cases hq
      have hlen : s.pool.length ≤ i := List.getElem?_eq_none_iff.mp hq
      rw [Function.update_of_ne howner, Tracers.mergedThreads, Tracers.mergedThreads, hq, h.pool,
        List.getElem?_append_right (by rw [List.length_set]; exact hlen)]
      cases hnth : new[i - (s.pool.set a.owner p').length]? with
      | none => rfl
      | some q => exact hnew q (List.mem_of_getElem? hnth)

include hsteps

/-- A step that does not touch the tables. -/
theorem Stepped.tables_keep (hmerged : merged p' = merged p) : s'.TablesSoFar merged steps := by
  refine hsteps.mono h.range_subset fun i => ?_
  rw [h.mergedThreads_eq hnew, hmerged, ← h.mergedThreads_owner merged, Function.update_eq_self]

/-- A thread that has not been merged records an event. -/
theorem Stepped.tables_record (hp : merged p = false) (hp' : merged p' = false) (e : E) :
    s'.TablesSoFar merged (steps ++ [.record a.owner e]) := by
  have hrecord := hsteps.record h.owner_mem ((h.mergedThreads_owner merged).trans hp) e
  refine hrecord.mono h.range_subset fun i => ?_
  rw [h.mergedThreads_eq hnew, hp', ← hp, ← h.mergedThreads_owner merged, Function.update_eq_self]

/-- A thread that has not been merged is merged. -/
theorem Stepped.tables_merge (hp : merged p = false) (hp' : merged p' = true) :
    s'.TablesSoFar merged (steps ++ [.merge a.owner]) := by
  have hmerge := hsteps.merge h.owner_mem ((h.mergedThreads_owner merged).trans hp)
  refine hmerge.mono h.range_subset fun i => ?_
  rw [h.mergedThreads_eq hnew, hp']

end Tables

/-- What a run from the start leaves. -/
structure Tracers.Tables (s : Tracers) (fileSteps : List (PoolStep ℕ FileEvent))
    (syscallSteps : List (PoolStep ℕ SyscallEvent)) : Prop where
  filesSoFar : s.TablesSoFar TracerPhase.filesMerged fileSteps
  syscallsSoFar : s.TablesSoFar TracerPhase.syscallsMerged syscallSteps
  fileStat : s.fileStat = fileSteps.foldl (PoolStep.run fileTables) fun _ => fileStatCreate
  syscalls : s.syscalls =
    syscallSteps.foldl (PoolStep.run syscallTables) fun _ => syscallStatCreate

theorem Tracers.start_tables : Tracers.start.Tables [] [] where
  filesSoFar := .nil _ fun i => by cases i <;> rfl
  syscallsSoFar := .nil _ fun i => by cases i <;> rfl
  fileStat := rfl
  syscalls := rfl

/-- **Every step keeps the tables** in the state that recording and merging leave. -/
theorem Tracers.Tables.step {s s' : Tracers} {a : TracerStep}
    {fileSteps : List (PoolStep ℕ FileEvent)} {syscallSteps : List (PoolStep ℕ SyscallEvent)}
    (hs : s.Tables fileSteps syscallSteps) (h : s.step a = .ok s') :
    s'.Tables (fileSteps ++ a.fileStep.toList) (syscallSteps ++ a.syscallStep.toList) := by
  obtain ⟨p, p', new, count, pushed, hmoves, hstep⟩ := Tracers.step_ok h
  have hnew : ∀ q ∈ new, q = .tracing := by
    cases hmoves with
    | create => exact fun q hq => List.mem_singleton.mp hq
    | _ => exact fun q hq => absurd hq List.not_mem_nil
  have hfiles : ∀ q ∈ new, q.filesMerged = false := fun q hq => by rw [hnew q hq]; rfl
  have hsyscalls : ∀ q ∈ new, q.syscallsMerged = false := fun q hq => by rw [hnew q hq]; rfl
  refine ⟨?_, ?_, ?_, ?_⟩
  · cases hmoves with
    | recordFile => exact hstep.tables_record hfiles hs.filesSoFar rfl rfl _
    | mergeFiles => exact hstep.tables_merge hfiles hs.filesSoFar rfl rfl
    | _ =>
        show s'.TablesSoFar TracerPhase.filesMerged (fileSteps ++ [])
        rw [List.append_nil]
        exact hstep.tables_keep hfiles hs.filesSoFar rfl
  · cases hmoves with
    | recordSyscall => exact hstep.tables_record hsyscalls hs.syscallsSoFar rfl rfl _
    | mergeSyscalls => exact hstep.tables_merge hsyscalls hs.syscallsSoFar rfl rfl
    | _ =>
        show s'.TablesSoFar TracerPhase.syscallsMerged (syscallSteps ++ [])
        rw [List.append_nil]
        exact hstep.tables_keep hsyscalls hs.syscallsSoFar rfl
  · rw [hstep.fileStat, hs.fileStat, List.foldl_append]
  · rw [hstep.syscalls, hs.syscalls, List.foldl_append]

/-! ### When the main thread reads zero -/

/-- The steps of a run on the tables of files. -/
def fileSteps (l : List TracerStep) : List (PoolStep ℕ FileEvent) :=
  l.filterMap TracerStep.fileStep

/-- The steps of a run on the tables of syscalls. -/
def syscallSteps (l : List TracerStep) : List (PoolStep ℕ SyscallEvent) :=
  l.filterMap TracerStep.syscallStep

theorem filterMap_singleton {A B : Type} (f : A → Option B) (a : A) :
    [a].filterMap f = (f a).toList := by
  cases h : f a <;> simp [h]

/-- **The invariants of a run.** -/
theorem Tracers.run_invariants {l : List TracerStep} {s : Tracers}
    (h : l.foldlM Tracers.step Tracers.start = .ok s) :
    s.Counted ∧ s.Tables (fileSteps l) (syscallSteps l) := by
  induction l using List.reverseRecOn generalizing s with
  | nil =>
      obtain rfl := Except.ok.inj h
      exact ⟨start_counted, start_tables⟩
  | append_singleton l a ih =>
      obtain ⟨s₁, hrun, hlast⟩ := foldlM_append_ok.mp h
      obtain ⟨s₂, hstep, hend⟩ := foldlM_cons_ok.mp hlast
      obtain rfl := Except.ok.inj hend
      obtain ⟨hcounted, htables⟩ := ih hrun
      refine ⟨hcounted.step hstep, ?_⟩
      rw [fileSteps, syscallSteps, List.filterMap_append, List.filterMap_append,
        filterMap_singleton, filterMap_singleton]
      exact htables.step hstep

section Zero

variable {s : Tracers} (hs : s.Counted) (hmain : s.pool[0]? = some .merged) (hzero : s.active = 0)

include hs hmain hzero

/-- **A zero leaves nobody but the main thread.** -/
theorem Tracers.Counted.finished_of_zero {i : ℕ} {p : TracerPhase} (hp : s.pool[i]? = some p)
    (hi : i ≠ 0) : p = .finished := by
  have hle := add_le_total (w := TracerPhase.weight) hi hp hmain
  have hcounter := hs.counter
  have hone : TracerPhase.merged.weight = 1 := rfl
  have hnone : BitVec.toNat (0 : CInt) = 0 := rfl
  rw [hzero, hnone] at hcounter
  cases p with
  | finished => rfl
  | _ =>
      simp only [TracerPhase.weight] at hle hone
      omega

theorem Tracers.Counted.phase_of_zero {p : TracerPhase} (hp : p ∈ s.pool) :
    p = .merged ∨ p = .finished := by
  obtain ⟨i, hi⟩ := List.getElem?_of_mem hp
  by_cases h : i = 0
  · subst h
    exact Or.inl (Option.some.inj (hi.symm.trans hmain))
  · exact Or.inr (hs.finished_of_zero hmain hzero hi h)

/-- Every thread that was created is in the list once. -/
theorem Tracers.Counted.threads_perm : s.threads.Perm (List.range' 1 (s.pool.length - 1)) := by
  rw [List.perm_iff_count]
  intro k
  have hpending : total (TracerPhase.pending k) s.pool = 0 := by
    refine total_eq_zero_iff.mpr fun p hp => ?_
    rcases hs.phase_of_zero hmain hzero hp with rfl | rfl <;> rfl
  have hhandles := hs.handles k
  obtain ⟨hpos, -⟩ := List.getElem?_eq_some_iff.mp hmain
  rw [hpending, Nat.add_zero] at hhandles
  rw [hhandles, List.Nodup.count List.nodup_range']
  refine if_congr ?_ rfl rfl
  rw [List.mem_range'_1]
  omega

/-- No thread has a step left. -/
theorem Tracers.Counted.not_step (a : TracerStep) (s' : Tracers) : s.step a ≠ .ok s' := by
  intro h
  obtain ⟨p, p', new, count, pushed, hmoves, hstep⟩ := Tracers.step_ok h
  rcases hs.phase_of_zero hmain hzero (List.mem_of_getElem? hstep.before) with rfl | rfl
  · cases hmoves with
    | dec hi => exact TracerPhase.noConfusion (hs.finished_of_zero hmain hzero hstep.before hi)
  · cases hmoves

end Zero

/-- What the main thread finds after the run `l`. -/
structure Tracers.Complete (l : List TracerStep) (s : Tracers) : Prop where
  /-- Joining returns for every thread but the main one. -/
  finished : ∀ i p, s.pool[i]? = some p → i ≠ 0 → p = .finished
  /-- The list has every thread once, but for the main one. -/
  joined : s.threads.Perm (List.range' 1 (s.pool.length - 1))
  /-- Every thread has recorded its events and has then merged its tables, once. -/
  filesMerged : PoolStep.Interleaves (List.range s.pool.length)
    (fun i => PoolStep.recordedBy i (fileSteps l)) (fileSteps l)
  syscallsMerged : PoolStep.Interleaves (List.range s.pool.length)
    (fun i => PoolStep.recordedBy i (syscallSteps l)) (syscallSteps l)
  /-- The main tables have everything that was recorded, once. -/
  fileStat : ∃ all : List FileEvent,
    all.Perm ((List.range s.pool.length).map
      fun i => PoolStep.recordedBy i (fileSteps l)).flatten ∧
    s.fileStat none = all.foldl recordFile fileStatCreate
  syscalls : ∃ all : List SyscallEvent,
    all.Perm ((List.range s.pool.length).map
      fun i => PoolStep.recordedBy i (syscallSteps l)).flatten ∧
    s.syscalls none = all.foldl recordSyscall syscallStatCreate
  /-- Nothing happens afterwards, and no thread is created. -/
  noStep : ∀ a s', s.step a ≠ .ok s'

/-- Where all threads stand behind their merges, the interleaving is complete. -/
theorem Tracers.TablesSoFar.interleaves {E : Type} {s : Tracers} {merged : TracerPhase → Bool}
    {steps : List (PoolStep ℕ E)} (h : s.TablesSoFar merged steps)
    (hmerged : ∀ p ∈ s.pool, merged p = true) :
    PoolStep.Interleaves (List.range s.pool.length) (fun i => PoolStep.recordedBy i steps)
      steps := by
  refine PoolStep.SoFar.interleaves h List.nodup_range fun i hi => ?_
  have hi : i < s.pool.length := List.mem_range.mp hi
  rw [Tracers.mergedThreads, List.getElem?_eq_getElem hi]
  exact hmerged _ (List.getElem_mem hi)

/-- **No tracer thread's result is missing.**  In every interleaving of any tree of
tracer threads, when the main thread has merged its tables and reads zero from
`active_threads`, all threads have merged theirs, all of them are in the list, and
none is created any more. -/
theorem all_threads_merged {l : List TracerStep} {s : Tracers}
    (hrun : l.foldlM Tracers.step Tracers.start = .ok s) (hmain : s.pool[0]? = some .merged)
    (hzero : s.active = 0) : s.Complete l := by
  obtain ⟨hs, htables⟩ := Tracers.run_invariants hrun
  have hfiles := htables.filesSoFar.interleaves fun p hp => by
    rcases hs.phase_of_zero hmain hzero hp with rfl | rfl <;> rfl
  have hsyscalls := htables.syscallsSoFar.interleaves fun p hp => by
    rcases hs.phase_of_zero hmain hzero hp with rfl | rfl <;> rfl
  refine
    { finished := fun i p hp hi => hs.finished_of_zero hmain hzero hp hi
      joined := hs.threads_perm hmain hzero
      filesMerged := hfiles
      syscallsMerged := hsyscalls
      fileStat := ?_
      syscalls := ?_
      noStep := hs.not_step hmain hzero }
  · rw [htables.fileStat]
    exact hfiles.exists_main_eq fileTables_lawful
  · rw [htables.syscalls]
    exact hsyscalls.exists_main_eq syscallTables_lawful

/-- The main thread starts thread 1 and that one thread 2; each of them ends before its
creator has put it into the list. -/
def earlyChild : List TracerStep :=
  [.inc 0, .create 0, .inc 1, .create 1, .recordSyscall 2 ⟨39, 2⟩, .mergeFiles 2,
    .mergeSyscalls 2, .dec 2, .prepend 1, .mergeFiles 1, .mergeSyscalls 1, .dec 1, .prepend 0,
    .recordFile 0 (.incrClose (cstr "log") 3), .mergeFiles 0, .mergeSyscalls 0]

/-- Both threads of `earlyChild` are joined, and what they recorded is in the main tables. -/
theorem all_threads_merged_early :
    ∃ s, earlyChild.foldlM Tracers.step Tracers.start = .ok s ∧ s.threads = [1, 2] ∧
      s.Complete earlyChild :=
  ⟨_, rfl, rfl, all_threads_merged rfl rfl rfl⟩

end Iotrace
