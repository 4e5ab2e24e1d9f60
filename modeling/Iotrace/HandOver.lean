/-
# Handing over a shared table

When a tracee is cloned with `CLONE_FILES`, the parent's tracer thread copies its
references into the child's start data without counting them, and the child's
tracer thread counts them when it enters its record.  In between the counter is
one too low.  A run in which that never happens is one without such a clone
(`hand_over_counted`, first part).

The window does no harm as long as the counted references outlast it.  If the last
record that refers to the table goes while a child is still to be registered, the
table, the counter and the mutex are freed, and the child's thread increments a
counter that is gone (`hand_over_use_after_free`).  In a run without such a step
nothing that is freed is used again, and the counters hold the numbers of the
records (`hand_over_counted`, second part).
-/

import Iotrace.Threads
import Iotrace.Library.Runs

namespace Iotrace

open Runs RefCount FiniteMap

/-- What tracer threads do with the references: `threads_add`, `thread_func` up to
`start_tracer`, `handle_execve_return`, `thread_tmps_remove`. -/
inductive ThreadStep where
  | threadsAdd (child parent flags : CInt)
  | threadFunc (child : CInt) (block : ThreadTmps)
  | execveReturn (tracee : CInt)
  | tracerEnd (tracee : CInt)

/-- A clone whose child shares the table of its parent. -/
def ThreadStep.HandsOver : ThreadStep → Prop
  | .threadsAdd _ _ flags => hasBit flags CLONE_FILES = true
  | _ => False

namespace World

/-- One step of some tracer thread. -/
def step (w : World) : ThreadStep → Except Abort World
  | .threadsAdd child parent flags => Iotrace.threadsAdd w child parent flags
  | .threadFunc child block => Iotrace.threadFunc w child block
  | .execveReturn tracee => Iotrace.execveReturn w tracee
  | .tracerEnd tracee => Iotrace.tracerEnd w tracee

/-- A thread works on the record of its own tracee, which it has entered; a child
has a number that has no record and no start data, so that no number is used again
before the thread of the former tracee has ended; its thread starts once. -/
def InScope (w : World) : ThreadStep → Prop
  | .threadsAdd child parent _ => (∃ tmps, w.process.threadTmpsTable.lookup parent = some tmps) ∧
      w.process.threadTmpsTable.lookup child = none ∧ w.started.lookup child = none
  | .threadFunc child _ => ∃ data, w.started.lookup child = some data
  | .execveReturn tracee | .tracerEnd tracee =>
    ∃ tmps, w.process.threadTmpsTable.lookup tracee = some tmps

/-- The last counted reference to a table does not go while a child is still to be
registered that has been handed it. -/
def Outlasts (w : World) : ThreadStep → Prop
  | .tracerEnd tracee => ∀ tmps, w.process.threadTmpsTable.lookup tracee = some tmps →
      w.process.heap.counts.cell tmps.shareCount = some 1 →
        ∀ child data, w.started.lookup child = some data →
          data.shareCount ≠ some tmps.shareCount
  | _ => True

/-- The records and the start data that refer to a table. -/
def references (w : World) (a : ℕ) : ℕ :=
  count (fun tmps => tmps.fdTable == a) w.process.threadTmpsTable +
    count (fun data => data.fdTable == a) w.started

/-- The counter of every table in use counts all references to it, those of start
data included. -/
def HandOverCounted (w : World) : Prop :=
  ∀ id tmps, w.process.threadTmpsTable.lookup id = some tmps →
    w.process.heap.counts.cell tmps.shareCount = some (w.references tmps.fdTable : ℤ)

/-- No start data holds references that it shares with a record. -/
def NoneHandedOver (w : World) : Prop :=
  ∀ child data, w.started.lookup child = some data → data.shareCount = none

variable {w : World}

/-- The records of a counter are those of its table. -/
theorem Sound.holders_eq (h : w.Sound) {id : CInt} {tmps : ThreadTmps}
    (hid : w.process.threadTmpsTable.lookup id = some tmps) :
    holders ThreadTmps.shareCount w.process.threadTmpsTable tmps.shareCount =
      count (fun tmps' => tmps'.fdTable == tmps.fdTable) w.process.threadTmpsTable := by
  refine count_congr fun x tmps' hx => ?_
  rcases h.coherent id x tmps tmps' hid hx with hrefs | hapart
  · simp [hrefs.fdTable, hrefs.shareCount]
  · simp [hapart.fdTable, hapart.shareCount]

/-- **The counters are right exactly when nothing is being handed over.** -/
theorem Sound.handOverCounted_iff (h : w.Sound) : w.HandOverCounted ↔ w.NoneHandedOver := by
  constructor
  · intro hcounted child data hdata
    rcases h.started child data hdata with ⟨id, tmps, hid, rfl⟩ | howns
    · have hcell := hcounted id tmps hid
      have hpos := count_pos (fun data => data.fdTable == tmps.fdTable) hdata
        (beq_self_eq_true _)
      rw [h.counted id tmps hid, h.holders_eq hid] at hcell
      have := Option.some.inj hcell
      unfold references at this
      omega
    · exact howns.unshared.1
  · intro hnone id tmps hid
    have hzero : count (fun data => data.fdTable == tmps.fdTable) w.started = 0 := by
      refine (count_eq_zero_iff _ _).mpr fun child data hdata => ?_
      rcases h.started child data hdata with ⟨id', tmps', hid', rfl⟩ | howns
      · exact nomatch hnone child _ hdata
      · simpa using (howns.records id tmps hid).symm
    rw [h.counted id tmps hid, h.holders_eq hid, references, hzero, Nat.add_zero]

/-- **One step keeps the world sound** if the counted references outlast the
hand-overs. -/
theorem Sound.step (h : w.Sound) {s : ThreadStep} (hscope : w.InScope s) (hkept : w.Outlasts s) :
    ∃ w', w.step s = .ok w' ∧ w'.Sound := by
  cases s with
  | threadsAdd child parent flags =>
      obtain ⟨⟨tmps, hid⟩, hchild, -⟩ := hscope
      obtain ⟨w', data, hstep, hsound, -⟩ := h.threadsAdd hid hchild flags
      exact ⟨w', hstep, hsound⟩
  | threadFunc child block =>
      obtain ⟨data, hdata⟩ := hscope
      obtain ⟨w', tmps, hstep, hsound, -⟩ := h.threadFunc hdata block
      exact ⟨w', hstep, hsound⟩
  | execveReturn tracee =>
      obtain ⟨tmps, hid⟩ := hscope
      obtain ⟨w', tmps', hstep, hsound, -⟩ := h.execveReturn hid
      exact ⟨w', hstep, hsound⟩
  | tracerEnd tracee =>
      obtain ⟨tmps, hid⟩ := hscope
      obtain ⟨w', hstep, hsound, -⟩ := h.tracerEnd hid fun hone =>
        hkept tmps hid (by rw [h.counted tracee tmps hid, hone]; rfl)
      exact ⟨w', hstep, hsound⟩

/-- Where nothing is being handed over, every reference is counted. -/
theorem NoneHandedOver.outlasts (h : w.NoneHandedOver) (s : ThreadStep) : w.Outlasts s := by
  cases s with
  | tracerEnd tracee =>
      intro tmps _ _ child data hdata
      rw [h child data hdata]
      exact nofun
  | _ => trivial

/-- **Only a clone that shares the table hands something over.** -/
theorem Sound.noneHandedOver_step (h : w.Sound) (hnone : w.NoneHandedOver) {s : ThreadStep}
    (hscope : w.InScope s) {w' : World} (hstep : w.step s = .ok w') :
    w'.NoneHandedOver ↔ ¬s.HandsOver := by
  cases s with
  | threadsAdd child parent flags =>
      obtain ⟨⟨tmps, hid⟩, hchild, -⟩ := hscope
      obtain ⟨w'', data, hstep', -, -, hstarted, hdata⟩ := h.threadsAdd hid hchild flags
      obtain rfl := Except.ok.inj (hstep.symm.trans hstep')
      unfold NoneHandedOver ThreadStep.HandsOver
      rw [hstarted]
      split_ifs at hdata with hflag
      · refine iff_of_false (fun hno => ?_) (not_not_intro hflag)
        have := hno child data (Finmap.lookup_insert _)
        rw [hdata] at this
        cases this
      · refine iff_of_true (fun x data' hx => ?_) hflag
        rw [lookup_insert_eq] at hx
        split_ifs at hx
        · obtain rfl := Option.some.inj hx
          exact hdata.1
        · exact hnone x data' hx
  | threadFunc child block =>
      obtain ⟨data, hdata⟩ := hscope
      obtain ⟨w'', tmps, hstep', -, -, -, hstarted⟩ := h.threadFunc hdata block
      obtain rfl := Except.ok.inj (hstep.symm.trans hstep')
      refine iff_of_true (fun x data' hx => ?_) not_false
      rw [hstarted, lookup_erase_eq] at hx
      split_ifs at hx
      exact hnone x data' hx
  | execveReturn tracee =>
      obtain ⟨tmps, hid⟩ := hscope
      obtain ⟨w'', tmps', hstep', -, -, hstarted, -⟩ := h.execveReturn hid
      obtain rfl := Except.ok.inj (hstep.symm.trans hstep')
      refine iff_of_true (fun x data' hx => ?_) not_false
      rw [hstarted] at hx
      exact hnone x data' hx
  | tracerEnd tracee =>
      obtain ⟨tmps, hid⟩ := hscope
      obtain ⟨w'', hstep', -, -, hstarted⟩ := h.tracerEnd hid fun _ x data hx => by
        rw [hnone x data hx]
        exact nofun
      obtain rfl := Except.ok.inj (hstep.symm.trans hstep')
      refine iff_of_true (fun x data' hx => ?_) not_false
      rw [hstarted] at hx
      exact hnone x data' hx

end World

/-- **The hand-over of a shared table is not counted, and harmless as long as the
counted references outlast it.**  Over every run of any number of tracer threads
from a sound world in which all references are counted:

* no step touches what has been freed and every counter counts all references in
  every state, if and only if no step is a clone that shares the table;
* if no step ends the last record of a table while a child that has been handed
  the table is still to be registered, then no step touches what has been freed,
  and in every state all that records and start data refer to is alive and every
  counter counts the records. -/
theorem hand_over_counted {w : World} (hs : w.Sound) (hcounted : w.HandOverCounted)
    {l : List ThreadStep} (hscope : Along World.step World.InScope w l) :
    ((∃ w', l.foldlM World.step w = .ok w') ∧ Always World.step World.HandOverCounted w l ↔
      Along World.step (fun _ s => ¬s.HandsOver) w l) ∧
    (Along World.step World.Outlasts w l →
      (∃ w', l.foldlM World.step w = .ok w') ∧ Always World.step World.Sound w l) := by
  have hkeep : ∀ (w : World) s w', w.Sound → w.InScope s ∧ w.Outlasts s → w.step s = .ok w' →
      w'.Sound := by
    intro w s w' h hin hstep
    obtain ⟨w'', hstep', hsound⟩ := h.step hin.1 hin.2
    obtain rfl := Except.ok.inj (hstep.symm.trans hstep')
    exact hsound
  have hharmless : Along World.step World.Outlasts w l →
      (∃ w', l.foldlM World.step w = .ok w') ∧ Always World.step World.Sound w l := by
    intro hkept
    have hboth := hscope.and hkept
    have hok := Along.along (Q := fun w s => ∃ w', w.step s = .ok w') hkeep
      (fun w s h hin => (h.step hin.1 hin.2).imp fun _ h => h.1) hboth hs
    exact ⟨hok.run_ok fun _ _ h => h, hboth.always hkeep hs⟩
  have hnone := hs.handOverCounted_iff.mp hcounted
  have hiff : Always World.step World.HandOverCounted w l ↔
      Along World.step (fun _ s => ¬s.HandsOver) w l := by
    refine always_iff_along (I := fun w => w.Sound ∧ w.NoneHandedOver)
      (fun w h => h.1.handOverCounted_iff.mpr h.2) ?_ hscope ⟨hs, hnone⟩
    rintro w s ⟨h, hnone⟩ hin
    obtain ⟨w', hstep, hsound⟩ := h.step hin (hnone.outlasts s)
    have hstepiff := h.noneHandedOver_step hnone hin hstep
    exact ⟨w', hstep, fun hno => ⟨hsound, hstepiff.mpr hno⟩,
      fun hc => hstepiff.mp (hsound.handOverCounted_iff.mp hc)⟩
  refine ⟨⟨fun h => hiff.mp h.2, fun h => ⟨(hharmless ?_).1, hiff.mpr h⟩⟩, hharmless⟩
  refine Along.along (I := fun w => w.Sound ∧ w.NoneHandedOver) ?_
    (fun w s h _ => h.2.outlasts s) (hscope.and h) ⟨hs, hnone⟩
  rintro w s w' ⟨h, hnone⟩ ⟨hin, hno⟩ hstep
  exact ⟨hkeep w s w' h ⟨hin, hnone.outlasts s⟩ hstep,
    (h.noneHandedOver_step hnone hin hstep).mpr hno⟩

/-- Memory as `malloc` may return it. -/
def someBlock : ThreadTmps := (Tracer.ofTable ∅).tmps

/-- A child is created, registered and calls `execve`; then its parent ends. -/
def createThenExecve (flags : CInt) : List ThreadStep :=
  [.threadsAdd 101 100 flags, .threadFunc 101 someBlock, .execveReturn 101, .tracerEnd 100]

theorem createThenExecve_inScope {flags : CInt} (hflags : flags = 0 ∨ flags = CLONE_FILES)
    {w : World} (hmain : mainTracer 100 someBlock = .ok w) :
    Along World.step World.InScope w (createThenExecve flags) := by
  obtain rfl := Except.ok.inj hmain
  rcases hflags with rfl | rfl
  all_goals
    refine ⟨⟨⟨_, rfl⟩, rfl, rfl⟩, fun w hw => ?_⟩
    obtain rfl := Except.ok.inj hw
    refine ⟨⟨_, rfl⟩, fun w hw => ?_⟩
    obtain rfl := Except.ok.inj hw
    refine ⟨⟨_, rfl⟩, fun w hw => ?_⟩
    obtain rfl := Except.ok.inj hw
    exact ⟨⟨_, rfl⟩, fun _ _ => trivial⟩

/-- In the first world nothing is being handed over. -/
theorem mainTracer_handOverCounted {tracee : CInt} {block : ThreadTmps} {w : World}
    (hmain : mainTracer tracee block = .ok w) : w.Sound ∧ w.HandOverCounted := by
  obtain ⟨w', tmps, hmain', hsound, -, hstarted⟩ :=
    World.mainTracer_sound tracee block
  obtain rfl := Except.ok.inj (hmain.symm.trans hmain')
  refine ⟨hsound, hsound.handOverCounted_iff.mpr fun child data hdata => ?_⟩
  rw [hstarted, Finmap.lookup_empty] at hdata
  cases hdata

/-- A child with a table of its own is counted throughout; one that shares the table
does no harm if it is registered before its parent ends. -/
theorem hand_over_counted_execve : ∃ w, mainTracer 100 someBlock = .ok w ∧
    ((∃ w', (createThenExecve 0).foldlM World.step w = .ok w') ∧
      Always World.step World.HandOverCounted w (createThenExecve 0)) ∧
    (∃ w', (createThenExecve CLONE_FILES).foldlM World.step w = .ok w') ∧
      Always World.step World.Sound w (createThenExecve CLONE_FILES) := by
  obtain ⟨w, hmain⟩ : ∃ w, mainTracer 100 someBlock = .ok w := ⟨_, rfl⟩
  obtain ⟨hsound, hcounted⟩ := mainTracer_handOverCounted hmain
  refine ⟨w, hmain,
    (hand_over_counted hsound hcounted (createThenExecve_inScope (Or.inl rfl) hmain)).1.mpr ?_,
    (hand_over_counted hsound hcounted (createThenExecve_inScope (Or.inr rfl) hmain)).2 ?_⟩
  · have hflags : ¬hasBit 0 CLONE_FILES = true := by decide
    exact ⟨hflags, fun _ _ => ⟨id, fun _ _ => ⟨id, fun _ _ => ⟨id, fun _ _ => trivial⟩⟩⟩⟩
  · obtain rfl := Except.ok.inj hmain
    refine ⟨trivial, fun w hw => ?_⟩
    obtain rfl := Except.ok.inj hw
    refine ⟨trivial, fun w hw => ?_⟩
    obtain rfl := Except.ok.inj hw
    refine ⟨trivial, fun w hw => ?_⟩
    obtain rfl := Except.ok.inj hw
    refine ⟨fun tmps _ _ child data hdata => ?_, fun _ _ => trivial⟩
    change (Finmap.erase 101 (Finmap.insert 101 _ ∅)).lookup child = _ at hdata
    rw [lookup_erase_eq, lookup_insert_eq, Finmap.lookup_empty] at hdata
    split_ifs at hdata

/-- **A parent that ends too early** takes the table with it: the thread of the child
increments a counter that has been freed. -/
theorem hand_over_use_after_free : ∃ w, mainTracer 100 someBlock = .ok w ∧
    Along World.step World.InScope w
      [.threadsAdd 101 100 CLONE_FILES, .tracerEnd 100, .threadFunc 101 someBlock] ∧
    ¬Always World.step World.HandOverCounted w
      [.threadsAdd 101 100 CLONE_FILES, .tracerEnd 100, .threadFunc 101 someBlock] ∧
    [.threadsAdd 101 100 CLONE_FILES, .tracerEnd 100, .threadFunc 101 someBlock].foldlM
      World.step w = .error .useAfterFree := by
  refine ⟨_, rfl, ?_, fun h => ?_, rfl⟩
  · refine ⟨⟨⟨_, rfl⟩, rfl, rfl⟩, fun w hw => ?_⟩
    obtain rfl := Except.ok.inj hw
    refine ⟨⟨_, rfl⟩, fun w hw => ?_⟩
    obtain rfl := Except.ok.inj hw
    exact ⟨⟨_, rfl⟩, fun _ _ => trivial⟩
  · have hcounted := (h.2 _ rfl).head 100 _ rfl
    exact absurd hcounted (show some (1 : ℤ) ≠ some 2 by decide)

end Iotrace
