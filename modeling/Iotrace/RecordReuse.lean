/-
# Records of thread ids that are used again

`thread_tmps_insert`, `thread_tmps_lookup` and `thread_tmps_remove` of
`src/thread_temporaries.c`, with the records as objects of their own: the table maps
the id of a tracee to the address of a record, and a record is an allocation that is
freed once.  (`Iotrace.ThreadTemporaries` keeps the records in the table itself, which
is the same as long as nobody asks which record is whose: `recordInsert_shows`,
`recordRemove_shows`.)

A tracer thread removes the record of its tracee after `waitpid` has reported the end
of the tracee and after it has merged its tables.  From the report on the kernel may
give the id to a new tracee, whose tracer thread enters a record under the same key.
If it does so before the old thread has removed its own, the old record is freed under
the new key, and the old thread then removes the new record
(`record_of_another_removed`).  All threads keep their own records if and only if no
thread inserts in that window (`own_record_iff`, and `IdsApart.vacant_iff` for what the
window is).
-/

import Iotrace.Threads
import Iotrace.Library.Runs

namespace Iotrace

open Runs FiniteMap

/-- The records, and `thread_tmps_table`. -/
structure Records where
  heap : Heap
  /-- The allocated records. -/
  cells : Arena ThreadTmps
  /-- `thread_tmps_table`: the address of the record of a tracee. -/
  table : Finmap fun _ : CInt => ℕ

/-- The references of a new record of `thread_tmps_insert`. -/
def newThreadTmps (heap : Heap) (block : ThreadTmps) (fdTable : ℕ)
    (shareCount sharedFdMutex : Option ℕ) : Except Abort (Heap × ThreadTmps) :=
  match shareCount, sharedFdMutex with
  | some count, some mutex => do
    let heap' ← heap.atomicInc count
    .ok (heap', { block with fdTable, shareCount := count, fdMutex := mutex })
  | _, _ => do
    let heap' ← heap.allocShared.atomicInc heap.counts.next
    .ok (heap',
      { block with fdTable, shareCount := heap.counts.next, fdMutex := heap.mutexes.next })

/-- `free_single_thread_tmps`, the record itself included. -/
def freeSingleRecord (r : Records) (a : ℕ) : Except Abort Records :=
  match r.cells.cell a with
  | some tmps => do
    let heap ← freeSingleThreadTmps r.heap tmps
    .ok { r with heap, cells := r.cells.free a }
  | none => .error .useAfterFree

/-- `g_hash_table_insert` on `thread_tmps_table`: a record that is replaced is freed. -/
def recordTableInsert (r : Records) (thread : CInt) (a : ℕ) : Except Abort Records := do
  let r ← match r.table.lookup thread with
    | some old => freeSingleRecord r old
    | none => .ok r
  .ok { r with table := r.table.insert thread a }

/-- `thread_tmps_insert`: the record gets the address `r.cells.next`. -/
def recordInsert (r : Records) (thread : CInt) (block : ThreadTmps) (fdTable : ℕ)
    (shareCount sharedFdMutex : Option ℕ) : Except Abort Records := do
  let (heap, tmps) ← newThreadTmps r.heap block fdTable shareCount sharedFdMutex
  recordTableInsert { r with heap, cells := r.cells.alloc tmps } thread r.cells.next

/-- `thread_tmps_lookup`. -/
def recordLookup (r : Records) (thread : CInt) : Option ℕ := r.table.lookup thread

/-- `thread_tmps_remove`: a record that is found is freed. -/
def recordRemove (r : Records) (thread : CInt) : Except Abort (Bool × Records) :=
  match r.table.lookup thread with
  | some a => do
    let r ← freeSingleRecord r a
    .ok (true, { r with table := r.table.erase thread })
  | none => .ok (false, r)

/-! ### The tracer threads -/

/-- Where the tracer thread of a tracee stands, with the id of the tracee and, once it
has been inserted, the address of the record. -/
inductive RecordPhase where
  /-- No such thread. -/
  | absent
  /-- `thread_func` has been started. -/
  | started (tid : CInt) (data : StartData)
  /-- `thread_tmps_insert` has returned. -/
  | tracing (tid : CInt) (own : ℕ)
  /-- The end of the tracee has been reported. -/
  | exited (tid : CInt) (own : ℕ)
  /-- `thread_tmps_remove` has returned. -/
  | removed (own : ℕ)

/-- The id and the record of a thread between its insert and its remove. -/
def RecordPhase.held : RecordPhase → Option (CInt × ℕ)
  | tracing tid own | exited tid own => some (tid, own)
  | _ => none

/-- The record that a thread has inserted. -/
def RecordPhase.own : RecordPhase → Option ℕ
  | tracing _ own | exited _ own | removed own => some own
  | _ => none

/-- The id of a tracee whose end has not been reported. -/
def RecordPhase.inUse : RecordPhase → Option CInt
  | started tid _ | tracing tid _ => some tid
  | _ => none

/-- The records and the tracer threads. -/
structure RecordPool where
  records : Records
  threads : ℕ → RecordPhase

/-- No record, and no thread. -/
def RecordPool.start (heap : Heap) : RecordPool := ⟨⟨heap, Arena.empty, ∅⟩, fun _ => .absent⟩

/-- The steps of thread `i`. -/
inductive RecordStep where
  /-- A new tracee, and its thread. -/
  | start (i : ℕ) (tid : CInt) (data : StartData)
  /-- `thread_tmps_insert`. -/
  | insert (i : ℕ) (block : ThreadTmps)
  /-- `thread_tmps_lookup` in a handler, which then changes the record and what it refers
  to in any way. -/
  | lookup (i : ℕ) (heap : Heap) (tmps : ThreadTmps)
  /-- `waitpid` reports the end of the tracee. -/
  | exit (i : ℕ)
  /-- `thread_tmps_remove` at the end of `start_tracer`. -/
  | remove (i : ℕ)

/-- One step of some thread; a thread that does not stand before it does nothing. -/
def RecordPool.step (s : RecordPool) : RecordStep → Except Abort RecordPool
  | .start i tid data =>
    match s.threads i with
    | .absent => .ok { s with threads := Function.update s.threads i (.started tid data) }
    | _ => .ok s
  | .insert i block =>
    match s.threads i with
    | .started tid data => do
      let records ← recordInsert s.records tid block data.fdTable data.shareCount data.fdMutex
      .ok ⟨records, Function.update s.threads i (.tracing tid s.records.cells.next)⟩
    | _ => .ok s
  | .lookup i heap tmps =>
    match s.threads i with
    | .tracing tid _ =>
      match recordLookup s.records tid with
      | some a =>
        .ok { s with records := { s.records with heap, cells := s.records.cells.write a tmps } }
      | none => .error .nullDereference
    | _ => .ok s
  | .exit i =>
    match s.threads i with
    | .tracing tid own => .ok { s with threads := Function.update s.threads i (.exited tid own) }
    | _ => .ok s
  | .remove i =>
    match s.threads i with
    | .exited tid own => do
      let (_, records) ← recordRemove s.records tid
      .ok ⟨records, Function.update s.threads i (.removed own)⟩
    | _ => .ok s

/-- What the kernel grants: a new tracee gets an id that no tracee has whose end has
not been reported. -/
def RecordPool.Granted (s : RecordPool) : RecordStep → Prop
  | .start _ tid _ => ∀ j, (s.threads j).inUse ≠ some tid
  | _ => True

/-- **The condition:** at an insert, every thread that had the id before has removed its
record. -/
def RecordPool.Vacant (s : RecordPool) : RecordStep → Prop
  | .insert i _ =>
    ∀ tid data, s.threads i = .started tid data → ∀ j a, (s.threads j).held ≠ some (tid, a)
  | _ => True

/-- **Every thread has its own record:** between its insert and its remove it is the one in
the table, and allocated; afterwards it has been freed. -/
structure RecordPool.OwnRecords (s : RecordPool) : Prop where
  held : ∀ i tid own, (s.threads i).held = some (tid, own) →
    recordLookup s.records tid = some own ∧ (s.records.cells.cell own).isSome
  removed : ∀ i own, s.threads i = .removed own → s.records.cells.cell own = none

/-- **A step works on the own record:** an insert frees no record of another thread, a
lookup returns the record that the thread has inserted, and so does the lookup of a remove. -/
def RecordPool.UsesOwn (s : RecordPool) : RecordStep → Prop
  | .insert i _ => ∀ tid data, s.threads i = .started tid data →
    ∀ a, recordLookup s.records tid = some a → ∀ j id, (s.threads j).held ≠ some (id, a)
  | .lookup i _ _ => ∀ tid own, s.threads i = .tracing tid own →
    recordLookup s.records tid = some own
  | .remove i => ∀ tid own, s.threads i = .exited tid own →
    recordLookup s.records tid = some own
  | _ => True

/-- **A failure that is none of a record:** the new references of an insert, or those of the
own record of a thread at its remove, are not in the heap. -/
def RecordPool.FailsInHeap (s : RecordPool) (e : Abort) : RecordStep → Prop
  | .insert i block => ∃ tid data, s.threads i = .started tid data ∧
      newThreadTmps s.records.heap block data.fdTable data.shareCount data.fdMutex = .error e
  | .remove i => ∃ tid own tmps, s.threads i = .exited tid own ∧
      s.records.cells.cell own = some tmps ∧ freeSingleThreadTmps s.records.heap tmps = .error e
  | _ => False

/-! ### What the operations do -/

/-- A record is freed, and the table stays as it is. -/
theorem freeSingleRecord_ok {r r' : Records} {a : ℕ} (h : freeSingleRecord r a = .ok r') :
    ∃ heap, r' = ⟨heap, r.cells.free a, r.table⟩ := by
  rw [freeSingleRecord] at h
  split at h
  · obtain ⟨heap, -, h⟩ := bind_eq_ok.mp h
    exact ⟨heap, (Except.ok.inj h).symm⟩
  · cases h

/-- An insert that finds no record under the id enters a new one. -/
theorem recordInsert_ok {r r' : Records} {tid : CInt} {block : ThreadTmps} {fdTable : ℕ}
    {shareCount fdMutex : Option ℕ} (hnone : recordLookup r tid = none)
    (h : recordInsert r tid block fdTable shareCount fdMutex = .ok r') :
    ∃ heap tmps, r' = ⟨heap, r.cells.alloc tmps, r.table.insert tid r.cells.next⟩ := by
  obtain ⟨⟨heap, tmps⟩, -, h⟩ := bind_eq_ok.mp h
  have hnone : r.table.lookup tid = none := hnone
  simp only [recordTableInsert, hnone, ok_bind] at h
  exact ⟨heap, tmps, (Except.ok.inj h).symm⟩

/-- A remove frees the record that it finds. -/
theorem recordRemove_ok {r r' : Records} {tid : CInt} {a : ℕ} {found : Bool}
    (hid : recordLookup r tid = some a) (h : recordRemove r tid = .ok (found, r')) :
    ∃ heap, r' = ⟨heap, r.cells.free a, r.table.erase tid⟩ := by
  have hid : r.table.lookup tid = some a := hid
  simp only [recordRemove, hid] at h
  obtain ⟨r₁, hfree, h⟩ := bind_eq_ok.mp h
  obtain ⟨heap, rfl⟩ := freeSingleRecord_ok hfree
  exact ⟨heap, (Prod.mk.inj (Except.ok.inj h)).2.symm⟩

/-! ### The invariant -/

/-- The record that a thread holds is one that it has inserted. -/
theorem RecordPhase.own_of_held {p : RecordPhase} {tid : CInt} {a : ℕ}
    (h : p.held = some (tid, a)) : p.own = some a := by
  cases p with
  | tracing _ _ | exited _ _ => exact congrArg some (Prod.mk.inj (Option.some.inj h)).2
  | absent | started _ _ | removed _ => cases h

/-- **The invariant:** the table has the records that are held and no others, and every
record has been inserted by one thread. -/
structure Records.HeldBy (r : Records) (threads : ℕ → RecordPhase) : Prop where
  held : ∀ i tid own, (threads i).held = some (tid, own) →
    recordLookup r tid = some own ∧ (r.cells.cell own).isSome
  freed : ∀ i own, (threads i).own = some own → (threads i).held = none →
    r.cells.cell own = none
  entry : ∀ tid a, recordLookup r tid = some a → ∃ i, (threads i).held = some (tid, a)
  below : ∀ i own, (threads i).own = some own → own < r.cells.next
  apart : ∀ i j own, (threads i).own = some own → (threads j).own = some own → i = j

namespace Records.HeldBy

variable {r : Records} {threads : ℕ → RecordPhase}

/-- There are no records before the first thread starts. -/
theorem empty (heap : Heap) : HeldBy ⟨heap, Arena.empty, ∅⟩ fun _ => .absent where
  held _ _ _ h := by cases h
  freed _ _ h := by cases h
  entry tid _ h := by
    have hnone : recordLookup ⟨heap, Arena.empty, ∅⟩ tid = none := Finmap.lookup_empty tid
    rw [hnone] at h
    cases h
  below _ _ h := by cases h
  apart _ _ _ h := by cases h

/-- A thread goes on, and its record stays as it is. -/
theorem setPhase (h : r.HeldBy threads) {i : ℕ} {p : RecordPhase}
    (hheld : p.held = (threads i).held) (hown : p.own = (threads i).own) :
    r.HeldBy (Function.update threads i p) := by
  have hheld' : ∀ j, (Function.update threads i p j).held = (threads j).held := fun j => by
    rw [Function.update_apply]
    split_ifs with hj
    · rw [hj, hheld]
    · rfl
  have hown' : ∀ j, (Function.update threads i p j).own = (threads j).own := fun j => by
    rw [Function.update_apply]
    split_ifs with hj
    · rw [hj, hown]
    · rfl
  constructor
  · intro j tid own hj
    exact h.held j tid own ((hheld' j).symm.trans hj)
  · intro j own hj hnone
    exact h.freed j own ((hown' j).symm.trans hj) ((hheld' j).symm.trans hnone)
  · intro tid a ha
    obtain ⟨j, hj⟩ := h.entry tid a ha
    exact ⟨j, (hheld' j).trans hj⟩
  · intro j own hj
    exact h.below j own ((hown' j).symm.trans hj)
  · intro j k own hj hk
    exact h.apart j k own ((hown' j).symm.trans hj) ((hown' k).symm.trans hk)

/-- The contents of a record change. -/
theorem write (h : r.HeldBy threads) (heap : Heap) (a : ℕ) (tmps : ThreadTmps) :
    HeldBy { r with heap, cells := r.cells.write a tmps } threads where
  held i tid own hi := by
    obtain ⟨hlook, hlive⟩ := h.held i tid own hi
    exact ⟨hlook, (Arena.write_cell_isSome _ _ _ _).trans hlive⟩
  freed i own hi hnone := by
    have hlive := Arena.write_cell_isSome r.cells a own tmps
    rw [h.freed i own hi hnone] at hlive
    exact Option.not_isSome_iff_eq_none.mp (by rw [hlive]; exact Bool.false_ne_true)
  entry := h.entry
  below := h.below
  apart := h.apart

/-- **A record is entered** under an id that no record has. -/
theorem insert (h : r.HeldBy threads) {i : ℕ} {tid : CInt} (hown : (threads i).own = none)
    (hvacant : recordLookup r tid = none) (heap : Heap) (tmps : ThreadTmps) :
    HeldBy ⟨heap, r.cells.alloc tmps, r.table.insert tid r.cells.next⟩
      (Function.update threads i (.tracing tid r.cells.next)) where
  held j id own hj := by
    change (r.table.insert tid _).lookup id = _ ∧ _
    rw [Function.update_apply] at hj
    rw [lookup_insert_eq]
    split_ifs at hj with hji
    · obtain ⟨rfl, rfl⟩ := Prod.mk.inj (Option.some.inj hj)
      exact ⟨if_pos rfl, congrArg Option.isSome (Arena.alloc_cell_self _ _)⟩
    · obtain ⟨hlook, hlive⟩ := h.held j id own hj
      have hne : id ≠ tid := by
        rintro rfl
        rw [hvacant] at hlook
        cases hlook
      rw [if_neg hne]
      exact ⟨hlook, (congrArg Option.isSome
        (Arena.alloc_cell_ne _ _ (Arena.ne_next_of_isSome hlive))).trans hlive⟩
  freed j own hj hnone := by
    rw [Function.update_apply] at hj hnone
    split_ifs at hj hnone with hji
    · cases hnone
    · have hne : own ≠ r.cells.next := Nat.ne_of_lt (h.below j own hj)
      exact (Arena.alloc_cell_ne _ _ hne).trans (h.freed j own hj hnone)
  entry id a ha := by
    change (r.table.insert tid _).lookup id = _ at ha
    rw [lookup_insert_eq] at ha
    split_ifs at ha with hid
    · obtain rfl := Option.some.inj ha
      exact ⟨i, by rw [hid, Function.update_self]; rfl⟩
    · obtain ⟨j, hj⟩ := h.entry id a ha
      have hji : j ≠ i := by
        rintro rfl
        rw [RecordPhase.own_of_held hj] at hown
        cases hown
      exact ⟨j, by rwa [Function.update_of_ne hji]⟩
  below j own hj := by
    show own < r.cells.next + 1
    rw [Function.update_apply] at hj
    split_ifs at hj with hji
    · obtain rfl := Option.some.inj hj
      omega
    · have := h.below j own hj
      omega
  apart j k own hj hk := by
    have hbelow : ∀ x, (threads x).own ≠ some r.cells.next := fun x hx =>
      Nat.lt_irrefl _ (h.below x _ hx)
    rw [Function.update_apply] at hj hk
    split_ifs at hj hk with hji hki hki
    · exact hji.trans hki.symm
    · obtain rfl := Option.some.inj hj
      exact absurd hk (hbelow k)
    · obtain rfl := Option.some.inj hk
      exact absurd hj (hbelow j)
    · exact h.apart j k own hj hk

/-- **A thread removes its record.** -/
theorem remove (h : r.HeldBy threads) {i : ℕ} {tid : CInt} {own : ℕ}
    (hi : (threads i).held = some (tid, own)) (heap : Heap) :
    HeldBy ⟨heap, r.cells.free own, r.table.erase tid⟩
      (Function.update threads i (.removed own)) where
  held j id a hj := by
    change (r.table.erase tid).lookup id = _ ∧ _
    rw [Function.update_apply] at hj
    split_ifs at hj with hji
    · cases hj
    · obtain ⟨hlook, hlive⟩ := h.held j id a hj
      have ha : a ≠ own := by
        rintro rfl
        exact hji (h.apart j i a (RecordPhase.own_of_held hj) (RecordPhase.own_of_held hi))
      have hid : id ≠ tid := by
        rintro rfl
        exact ha (Option.some.inj (hlook.symm.trans (h.held i id own hi).1))
      rw [Finmap.lookup_erase_ne hid]
      exact ⟨hlook, (congrArg Option.isSome (Arena.free_cell_ne _ ha)).trans hlive⟩
  freed j a hj hnone := by
    rw [Function.update_apply] at hj hnone
    split_ifs at hj hnone with hji
    · obtain rfl := Option.some.inj hj
      exact Arena.free_cell_self _ _
    · have ha : a ≠ own := by
        rintro rfl
        exact hji (h.apart j i a hj (RecordPhase.own_of_held hi))
      exact (Arena.free_cell_ne _ ha).trans (h.freed j a hj hnone)
  entry id a ha := by
    change (r.table.erase tid).lookup id = _ at ha
    rw [lookup_erase_eq] at ha
    split_ifs at ha with hid
    obtain ⟨j, hj⟩ := h.entry id a ha
    have hji : j ≠ i := by
      rintro rfl
      exact hid (Prod.mk.inj (Option.some.inj (hj.symm.trans hi))).1
    exact ⟨j, by rwa [Function.update_of_ne hji]⟩
  below j a hj := by
    rw [Function.update_apply] at hj
    split_ifs at hj with hji
    · obtain rfl := Option.some.inj hj
      exact h.below i own (RecordPhase.own_of_held hi)
    · exact h.below j a hj
  apart j k a hj hk := by
    have hown : ∀ x, (Function.update threads i (.removed own) x).own = some a →
        (threads x).own = some a := fun x hx => by
      rw [Function.update_apply] at hx
      split_ifs at hx with hxi
      · obtain rfl := Option.some.inj hx
        rw [hxi]
        exact RecordPhase.own_of_held hi
      · exact hx
    exact h.apart j k a (hown j hj) (hown k hk)

/-- Under the invariant, an id that no thread holds has no record. -/
theorem lookup_none (h : r.HeldBy threads) {tid : CInt}
    (hfree : ∀ j a, (threads j).held ≠ some (tid, a)) : recordLookup r tid = none := by
  cases hlook : recordLookup r tid with
  | none => rfl
  | some a =>
      obtain ⟨j, hj⟩ := h.entry tid a hlook
      exact absurd hj (hfree j a)

end Records.HeldBy

/-! ### Steps and runs -/

namespace RecordPool

variable {s s' : RecordPool}

/-- The invariant, of a state. -/
def Sound (s : RecordPool) : Prop := s.records.HeldBy s.threads

/-- The invariant says more than that all threads have their own records. -/
theorem Sound.ownRecords (h : s.Sound) : s.OwnRecords where
  held := h.held
  removed i own hi := h.freed i own (by rw [hi]; rfl) (by rw [hi]; rfl)

/-- What a step does to a state. -/
inductive Change (s : RecordPool) : RecordStep → RecordPool → Prop where
  | stay {a : RecordStep} : Change s a s
  | start {i : ℕ} {tid : CInt} {data : StartData} (hi : s.threads i = .absent) :
      Change s (.start i tid data)
        { s with threads := Function.update s.threads i (.started tid data) }
  | insert {i : ℕ} {block : ThreadTmps} {tid : CInt} {data : StartData} {records : Records}
      (hi : s.threads i = .started tid data)
      (hinsert : recordInsert s.records tid block data.fdTable data.shareCount data.fdMutex =
        .ok records) :
      Change s (.insert i block)
        ⟨records, Function.update s.threads i (.tracing tid s.records.cells.next)⟩
  | lookup {i : ℕ} {heap : Heap} {tmps : ThreadTmps} {a : ℕ} :
      Change s (.lookup i heap tmps)
        { s with records := { s.records with heap, cells := s.records.cells.write a tmps } }
  | exit {i : ℕ} {tid : CInt} {own : ℕ} (hi : s.threads i = .tracing tid own) :
      Change s (.exit i) { s with threads := Function.update s.threads i (.exited tid own) }
  | remove {i : ℕ} {tid : CInt} {own : ℕ} {found : Bool} {records : Records}
      (hi : s.threads i = .exited tid own)
      (hremove : recordRemove s.records tid = .ok (found, records)) :
      Change s (.remove i) ⟨records, Function.update s.threads i (.removed own)⟩

/-- **Every step is one of these changes.** -/
theorem change_of_step {a : RecordStep} (hs : s.step a = .ok s') : Change s a s' := by
  cases a with
  | start i tid data =>
      simp only [step] at hs
      split at hs
      next hi =>
        obtain rfl := Except.ok.inj hs
        exact .start hi
      next =>
        obtain rfl := Except.ok.inj hs
        exact .stay
  | insert i block =>
      simp only [step] at hs
      split at hs
      next tid data hi =>
        obtain ⟨records, hinsert, hs⟩ := bind_eq_ok.mp hs
        obtain rfl := Except.ok.inj hs
        exact .insert hi hinsert
      next =>
        obtain rfl := Except.ok.inj hs
        exact .stay
  | lookup i heap tmps =>
      simp only [step] at hs
      split at hs
      next =>
        split at hs
        next =>
          obtain rfl := Except.ok.inj hs
          exact .lookup
        next => cases hs
      next =>
        obtain rfl := Except.ok.inj hs
        exact .stay
  | exit i =>
      simp only [step] at hs
      split at hs
      next tid own hi =>
        obtain rfl := Except.ok.inj hs
        exact .exit hi
      next =>
        obtain rfl := Except.ok.inj hs
        exact .stay
  | remove i =>
      simp only [step] at hs
      split at hs
      next tid own hi =>
        obtain ⟨⟨found, records⟩, hremove, hs⟩ := bind_eq_ok.mp hs
        obtain rfl := Except.ok.inj hs
        exact .remove hi hremove
      next =>
        obtain rfl := Except.ok.inj hs
        exact .stay

/-- **A step that meets the condition keeps the invariant.** -/
theorem Sound.step (h : s.Sound) {a : RecordStep} (hvacant : s.Vacant a)
    (hs : s.step a = .ok s') : s'.Sound := by
  cases change_of_step hs with
  | stay => exact h
  | start hi => exact Records.HeldBy.setPhase h (by rw [hi]; rfl) (by rw [hi]; rfl)
  | @insert i block tid data records hi hinsert =>
      have hnone := Records.HeldBy.lookup_none h (hvacant tid data hi)
      obtain ⟨heap, tmps, rfl⟩ := recordInsert_ok hnone hinsert
      exact Records.HeldBy.insert h (by rw [hi]; rfl) hnone heap tmps
  | @lookup i heap tmps a => exact Records.HeldBy.write h heap a tmps
  | exit hi => exact Records.HeldBy.setPhase h (by rw [hi]; rfl) (by rw [hi]; rfl)
  | @remove i tid own found records hi hremove =>
      have hheld : (s.threads i).held = some (tid, own) := by rw [hi]; rfl
      obtain ⟨heap, rfl⟩ := recordRemove_ok (h.held i tid own hheld).1 hremove
      exact Records.HeldBy.remove h hheld heap

/-- **Under the invariant the condition is what a step needs** to work on the own record. -/
theorem Sound.usesOwn_iff (h : s.Sound) (a : RecordStep) : s.UsesOwn a ↔ s.Vacant a := by
  cases a with
  | start | exit => exact Iff.rfl
  | lookup i heap tmps =>
      exact iff_of_true (fun tid own hi => (h.held i tid own (by rw [hi]; rfl)).1) trivial
  | remove i =>
      exact iff_of_true (fun tid own hi => (h.held i tid own (by rw [hi]; rfl)).1) trivial
  | insert i block =>
      constructor
      · intro huses tid data hi j a hj
        exact huses tid data hi a (h.held j tid a hj).1 j tid hj
      · intro hvacant tid data hi a ha
        rw [Records.HeldBy.lookup_none h (hvacant tid data hi)] at ha
        cases ha

/-- **Every thread keeps its own record, and works on it, if and only if every insert meets
the condition.**  This is about all interleavings of any number of threads; under the condition
a run fails in the heap of tables alone (`fails_in_heap`). -/
theorem own_record_iff (heap : Heap) (l : List RecordStep) :
    Always step OwnRecords (start heap) l ∧ Along step UsesOwn (start heap) l ↔
      Along step Vacant (start heap) l := by
  have hstart : (start heap).Sound := Records.HeldBy.empty heap
  constructor
  · rintro ⟨-, huses⟩
    exact huses.along (I := Sound) (fun s a s' h huse => h.step ((h.usesOwn_iff a).mp huse))
      (fun s a h => (h.usesOwn_iff a).mp) hstart
  · intro hvacant
    have hkeep : ∀ s a s', Sound s → s.Vacant a → step s a = .ok s' → Sound s' :=
      fun s a s' h => h.step
    refine ⟨(hvacant.always hkeep hstart).mono fun s h => h.ownRecords, ?_⟩
    exact hvacant.along hkeep (fun s a h => (h.usesOwn_iff a).mpr) hstart

/-- **No record is missing or freed twice** under the condition: a step fails only where the
heap has lost what a record refers to. -/
theorem Sound.failsInHeap (h : s.Sound) {a : RecordStep} (hvacant : s.Vacant a) {e : Abort}
    (hs : s.step a = .error e) : s.FailsInHeap e a := by
  cases a with
  | start i tid data | exit i =>
      simp only [RecordPool.step] at hs
      split at hs <;> cases hs
  | insert i block =>
      simp only [RecordPool.step] at hs
      split at hs
      next tid data hi =>
        refine ⟨tid, data, hi, ?_⟩
        have hnone : s.records.table.lookup tid = none :=
          Records.HeldBy.lookup_none h (hvacant tid data hi)
        simp only [recordInsert, recordTableInsert, hnone] at hs
        cases hnew : newThreadTmps s.records.heap block data.fdTable data.shareCount data.fdMutex
        case ok r =>
          rw [hnew] at hs
          cases hs
        case error e' =>
          rw [hnew] at hs
          cases hs
          rfl
      next => cases hs
  | lookup i heap tmps =>
      simp only [RecordPool.step] at hs
      split at hs
      next tid own hi =>
        rw [(h.held i tid own (by rw [hi]; rfl)).1] at hs
        cases hs
      next => cases hs
  | remove i =>
      simp only [RecordPool.step] at hs
      split at hs
      next tid own hi =>
        obtain ⟨hid, hlive⟩ := h.held i tid own (by rw [hi]; rfl)
        obtain ⟨tmps, hcell⟩ := Option.isSome_iff_exists.mp hlive
        refine ⟨tid, own, tmps, hi, hcell, ?_⟩
        have hid : s.records.table.lookup tid = some own := hid
        simp only [recordRemove, hid, freeSingleRecord, hcell] at hs
        cases hfree : freeSingleThreadTmps s.records.heap tmps
        case ok heap =>
          rw [hfree] at hs
          cases hs
        case error e' =>
          rw [hfree] at hs
          cases hs
          rfl
      next => cases hs

/-- **A run that meets the condition** fails at no record. -/
theorem fails_in_heap (heap : Heap) {l : List RecordStep}
    (hvacant : Along step Vacant (start heap) l) :
    Along step (fun s a => ∀ e, s.step a = .error e → s.FailsInHeap e a) (start heap) l :=
  hvacant.along (I := Sound) (fun _ _ _ h => h.step) (fun _ _ h hvacant _ => h.failsInHeap hvacant)
    (Records.HeldBy.empty heap)

/-- Two tables. -/
def reuseHeap : Heap :=
  ⟨(Arena.empty.alloc fdTableCreate).alloc fdTableCreate, Arena.empty, Arena.empty⟩

/-- What `malloc` left in a record. -/
def reuseBlock : ThreadTmps := ⟨⟨0, 0⟩, 0, 0, 0, 0, fun _ => 0, 0, 0, 0⟩

/-- The second tracee has the id of the first, and its thread inserts its record before
the first thread has removed its own. -/
def reuseSteps : List RecordStep :=
  [.start 0 7 ⟨0, none, none⟩, .insert 0 reuseBlock, .exit 0, .start 1 7 ⟨1, none, none⟩,
    .insert 1 reuseBlock, .remove 0]

/-- **The first thread removes the record of the second**, whose next lookup finds none. -/
theorem record_of_another_removed :
    Along step Granted (start reuseHeap) reuseSteps ∧
      (∃ s, reuseSteps.foldlM step (start reuseHeap) = .ok s ∧ s.threads 1 = .tracing 7 1 ∧
        recordLookup s.records 7 = none) ∧
      ¬(Always step OwnRecords (start reuseHeap) reuseSteps ∧
        Along step UsesOwn (start reuseHeap) reuseSteps) := by
  obtain ⟨s, hrun, hphase, hnone⟩ : ∃ s, reuseSteps.foldlM step (start reuseHeap) = .ok s ∧
      s.threads 1 = .tracing 7 1 ∧ recordLookup s.records 7 = none := ⟨_, rfl, rfl, rfl⟩
  refine ⟨?_, ⟨s, hrun, hphase, hnone⟩, fun h => ?_⟩
  · refine Along.cons (fun _ => nofun) rfl (Along.cons trivial rfl (Along.cons trivial rfl
      ⟨fun j => ?_, fun _ _ => ⟨trivial, fun _ _ => ⟨trivial, fun _ _ => trivial⟩⟩⟩))
    by_cases hj : j = 0
    · subst hj
      exact nofun
    · simp [start, RecordPhase.inUse, Function.update_of_ne hj]
  · have hheld := (h.1.last hrun).held 1 7 1 (by rw [hphase]; rfl)
    rw [hnone] at hheld
    cases hheld.1

/-! ### The window -/

/-- No two tracees whose end has not been reported have one id. -/
def IdsApart (s : RecordPool) : Prop :=
  ∀ i j tid, (s.threads i).inUse = some tid → (s.threads j).inUse = some tid → i = j

/-- One thread goes on to a phase whose id, if it has one, no other thread has. -/
theorem IdsApart.update (h : s.IdsApart) {i : ℕ} {p : RecordPhase}
    (hp : ∀ tid, p.inUse = some tid → ∀ j, (s.threads j).inUse = some tid → j = i)
    (records : Records) : IdsApart ⟨records, Function.update s.threads i p⟩ := by
  intro j k tid hj hk
  simp only [Function.update_apply] at hj hk
  split_ifs at hj hk with hji hki hki
  · exact hji.trans hki.symm
  · exact hji.trans (hp tid hj k hk).symm
  · exact (hp tid hk j hj).trans hki.symm
  · exact h j k tid hj hk

/-- A step that the kernel grants keeps the ids apart. -/
theorem IdsApart.step (h : s.IdsApart) {a : RecordStep} (hgranted : s.Granted a)
    (hs : s.step a = .ok s') : s'.IdsApart := by
  cases change_of_step hs with
  | stay | lookup => exact h
  | start hi =>
      refine h.update (fun id hid j hj => ?_) _
      obtain rfl := Option.some.inj hid
      exact absurd hj (hgranted j)
  | insert hi hinsert =>
      refine h.update (fun id hid j hj => h j _ id hj ?_) _
      rw [hi]
      exact hid
  | exit | remove => exact h.update (fun _ hid => by cases hid) _

/-- **What stands in the way of an insert** are the threads whose tracee had the id, has been
reported to have ended, and whose record has not been removed. -/
theorem IdsApart.vacant_iff (h : s.IdsApart) (i : ℕ) (block : ThreadTmps) :
    s.Vacant (.insert i block) ↔
      ∀ tid data, s.threads i = .started tid data → ∀ j a, s.threads j ≠ .exited tid a := by
  constructor
  · intro hvacant tid data hi j a hj
    exact hvacant tid data hi j a (by rw [hj]; rfl)
  · intro hexited tid data hi j a hj
    cases hphase : s.threads j with
    | absent | started | removed =>
        rw [hphase] at hj
        cases hj
    | exited id own =>
        rw [hphase] at hj
        obtain ⟨rfl, rfl⟩ := Prod.mk.inj (Option.some.inj hj)
        exact hexited _ data hi j _ hphase
    | tracing id own =>
        -- one of the two would be the other
        rw [hphase] at hj
        obtain ⟨rfl, rfl⟩ := Prod.mk.inj (Option.some.inj hj)
        obtain rfl := h i j _ (by rw [hi]; rfl) (by rw [hphase]; rfl)
        rw [hi] at hphase
        cases hphase

/-- The kernel keeps the ids of tracees apart until the end of one is reported. -/
theorem idsApart_of_granted {heap : Heap} {l : List RecordStep}
    (h : Along step Granted (start heap) l) : Always step IdsApart (start heap) l :=
  h.always (fun _ _ _ hs => hs.step) fun _ _ _ hi => by cases hi

end RecordPool

/-! ### The table of records -/

/-- The map of `Process` holds the contents of the records. -/
structure Records.Shows (r : Records) (p : Process) : Prop where
  heap : p.heap = r.heap
  lookup : ∀ tid, p.threadTmpsTable.lookup tid = (r.table.lookup tid).bind r.cells.cell

/-- The records in the table are allocated, and no two ids have one record. -/
structure Records.Proper (r : Records) : Prop where
  live : ∀ tid a, r.table.lookup tid = some a → (r.cells.cell a).isSome
  apart : ∀ tid tid' a, r.table.lookup tid = some a → r.table.lookup tid' = some a → tid = tid'

namespace Records

variable {r : Records} {p : Process}

/-- Under the invariant no two ids have one record. -/
theorem HeldBy.proper {threads : ℕ → RecordPhase} (h : r.HeldBy threads) : r.Proper where
  live tid a ha := by
    obtain ⟨i, hi⟩ := h.entry tid a ha
    exact (h.held i tid a hi).2
  apart tid tid' a ha ha' := by
    obtain ⟨i, hi⟩ := h.entry tid a ha
    obtain ⟨j, hj⟩ := h.entry tid' a ha'
    obtain rfl := h.apart i j a (RecordPhase.own_of_held hi) (RecordPhase.own_of_held hj)
    exact (Prod.mk.inj (Option.some.inj (hi.symm.trans hj))).1

/-- `thread_tmps_insert` in two parts. -/
theorem threadTmpsInsert_eq (p : Process) (tid : CInt) (block : ThreadTmps) (fdTable : ℕ)
    (shareCount fdMutex : Option ℕ) :
    threadTmpsInsert p tid block fdTable shareCount fdMutex = (do
      let (heap, tmps) ← newThreadTmps p.heap block fdTable shareCount fdMutex
      threadTmpsTableInsert { p with heap } tid tmps) := by
  rcases shareCount with _ | count
  · cases h : p.heap.allocShared.atomicInc p.heap.counts.next <;>
      simp [threadTmpsInsert, newThreadTmps, h]
  · rcases fdMutex with _ | mutex
    · cases h : p.heap.allocShared.atomicInc p.heap.counts.next <;>
        simp [threadTmpsInsert, newThreadTmps, h]
    · cases h : p.heap.atomicInc count <;> simp [threadTmpsInsert, newThreadTmps, h]

/-- A record is allocated. -/
theorem Proper.alloc (h : r.Proper) (heap : Heap) (tmps : ThreadTmps) :
    Proper { r with heap, cells := r.cells.alloc tmps } where
  live tid a ha := by
    obtain ⟨v, hv⟩ := Option.isSome_iff_exists.mp (h.live tid a ha)
    exact (congrArg Option.isSome (Arena.alloc_cell_of_some hv)).trans rfl
  apart := h.apart

/-- A new record does not show in the table before it is entered. -/
theorem Shows.alloc (h : r.Shows p) (hr : r.Proper) (heap : Heap) (tmps : ThreadTmps) :
    Shows { r with heap, cells := r.cells.alloc tmps } { p with heap } where
  heap := rfl
  lookup tid := by
    refine (h.lookup tid).trans (Option.bind_congr fun a ha => ?_)
    obtain ⟨v, hv⟩ := Option.isSome_iff_exists.mp (hr.live tid a ha)
    rw [hv, Arena.alloc_cell_of_some hv]

/-- **`thread_tmps_lookup`** finds the contents of the record. -/
theorem Shows.threadTmpsLookup (h : r.Shows p) (tid : CInt) :
    threadTmpsLookup p tid = (recordLookup r tid).bind r.cells.cell :=
  h.lookup tid

/-- A record is freed, and the free of its contents is what the table sees of it. -/
theorem freeSingleRecord_shows (h : r.Shows p) {tid : CInt} {a : ℕ}
    (ha : r.table.lookup tid = some a) {r' : Records} (hfree : freeSingleRecord r a = .ok r') :
    ∃ tmps heap, p.threadTmpsTable.lookup tid = some tmps ∧
      freeSingleThreadTmps p.heap tmps = .ok heap ∧ r' = ⟨heap, r.cells.free a, r.table⟩ := by
  rw [freeSingleRecord] at hfree
  split at hfree
  next tmps htmps =>
    obtain ⟨heap, hheap, hfree⟩ := bind_eq_ok.mp hfree
    refine ⟨tmps, heap, ?_, by rw [h.heap, hheap], (Except.ok.inj hfree).symm⟩
    rw [h.lookup, ha]
    exact htmps
  next => cases hfree

/-- An insert replaces the contents under the key, and frees the old record. -/
theorem recordTableInsert_shows (h : r.Shows p) (hr : r.Proper) {tid : CInt} {a : ℕ}
    {tmps : ThreadTmps} (ha : r.cells.cell a = some tmps)
    (hnew : ∀ id, r.table.lookup id ≠ some a) {r' : Records}
    (hinsert : recordTableInsert r tid a = .ok r') :
    ∃ p', threadTmpsTableInsert p tid tmps = .ok p' ∧ r'.Shows p' := by
  rw [recordTableInsert] at hinsert
  cases hold : r.table.lookup tid with
  | none =>
      have hnone : p.threadTmpsTable.lookup tid = none := by rw [h.lookup, hold]; rfl
      simp only [hold, ok_bind] at hinsert
      obtain rfl := Except.ok.inj hinsert
      refine ⟨⟨p.heap, p.threadTmpsTable.insert tid tmps⟩,
        by simp only [threadTmpsTableInsert, hnone, ok_bind], h.heap, fun x => ?_⟩
      simp only [lookup_insert_eq]
      split_ifs
      · exact ha.symm
      · exact h.lookup x
  | some old =>
      simp only [hold] at hinsert
      obtain ⟨r₁, hfree, hinsert⟩ := bind_eq_ok.mp hinsert
      obtain rfl := Except.ok.inj hinsert
      obtain ⟨tmps₁, heap, hlook, hheap, rfl⟩ := freeSingleRecord_shows h hold hfree
      refine ⟨⟨heap, p.threadTmpsTable.insert tid tmps⟩,
        by simp only [threadTmpsTableInsert, hlook, hheap, ok_bind], rfl, fun x => ?_⟩
      simp only [lookup_insert_eq]
      split_ifs with hx
      · have hne : a ≠ old := fun heq => hnew tid (by rw [hold, heq])
        exact ((Arena.free_cell_ne _ hne).trans ha).symm
      · refine (h.lookup x).trans (Option.bind_congr fun b hb => ?_)
        have hne : b ≠ old := by
          rintro rfl
          exact hx (hr.apart x tid b hb hold)
        exact (Arena.free_cell_ne _ hne).symm

/-- **`thread_tmps_insert`** puts the contents of the new record into the table. -/
theorem recordInsert_shows (h : r.Shows p) (hr : r.Proper) {tid : CInt} {block : ThreadTmps}
    {fdTable : ℕ} {shareCount fdMutex : Option ℕ} {r' : Records}
    (hinsert : recordInsert r tid block fdTable shareCount fdMutex = .ok r') :
    ∃ p', threadTmpsInsert p tid block fdTable shareCount fdMutex = .ok p' ∧ r'.Shows p' := by
  obtain ⟨⟨heap, tmps⟩, hnew, hinsert⟩ := bind_eq_ok.mp hinsert
  obtain ⟨p', hp', hshows⟩ := recordTableInsert_shows (h.alloc hr heap tmps) (hr.alloc heap tmps)
    (Arena.alloc_cell_self _ _)
    (fun id hid => Arena.ne_next_of_isSome (hr.live id _ hid) rfl) hinsert
  refine ⟨p', ?_, hshows⟩
  rw [threadTmpsInsert_eq, h.heap, hnew, ok_bind]
  exact hp'

/-- **`thread_tmps_remove`** takes the contents of the record out of the table. -/
theorem recordRemove_shows (h : r.Shows p) (hr : r.Proper) {tid : CInt} {found : Bool}
    {r' : Records} (hremove : recordRemove r tid = .ok (found, r')) :
    ∃ p', threadTmpsRemove p tid = .ok (found, p') ∧ r'.Shows p' := by
  rw [recordRemove] at hremove
  cases hold : r.table.lookup tid with
  | none =>
      have hnone : p.threadTmpsTable.lookup tid = none := by rw [h.lookup, hold]; rfl
      simp only [hold] at hremove
      obtain ⟨rfl, rfl⟩ := Prod.mk.inj (Except.ok.inj hremove)
      exact ⟨p, by simp only [threadTmpsRemove, hnone], h⟩
  | some a =>
      simp only [hold] at hremove
      obtain ⟨r₁, hfree, hremove⟩ := bind_eq_ok.mp hremove
      obtain ⟨rfl, rfl⟩ := Prod.mk.inj (Except.ok.inj hremove)
      obtain ⟨tmps, heap, hlook, hheap, rfl⟩ := freeSingleRecord_shows h hold hfree
      refine ⟨⟨heap, p.threadTmpsTable.erase tid⟩,
        by simp only [threadTmpsRemove, hlook, hheap, ok_bind], rfl, fun x => ?_⟩
      simp only [lookup_erase_eq]
      split_ifs with hx
      · rfl
      · refine (h.lookup x).trans (Option.bind_congr fun b hb => ?_)
        have hne : b ≠ a := by
          rintro rfl
          exact hx (hr.apart x tid b hb hold)
        exact (Arena.free_cell_ne _ hne).symm

end Records

end Iotrace
