/-
# Starting and ending tracer threads

`threads_add` and `thread_func` in `src/main.c`, next to `thread_tmps_insert`,
`thread_tmps_remove` and `handle_execve_return`.  When a tracee creates a child,
its tracer thread puts references to a table into a `thread_start_data` and starts
a thread, which later enters a record for the child with them.  In between the
references are held by start data that no counter knows of.

`World.Sound` is the invariant of all this: what records refer to is alive, the
counter of a table holds the number of its records (`RefCount.Counted`), and start
data refers to what a record refers to as well, or has a table to itself.  The
functions of the source keep it; each of their lemmas says besides which table
every tracee then has (`World.tableOf`).
-/

import Iotrace.Execve
import Iotrace.Library.RefCount

namespace Iotrace

open RefCount FiniteMap

/-- `CLONE_FILES` of `linux/sched.h`. -/
def CLONE_FILES : CInt := 0x400

/-- `thread_start_data`; its tracee is the key under which a `World` keeps it. -/
structure StartData where
  fdTable : ℕ
  shareCount : Option ℕ
  fdMutex : Option ℕ
  deriving DecidableEq

/-- The records of the tracer threads, and the start data of those that have been
started and have not entered their record yet. -/
structure World where
  process : Process
  started : Finmap fun _ : CInt => StartData

/-- `threads_add`. -/
def threadsAdd (w : World) (tracee parentsTracee cloneFlags : CInt) : Except Abort World :=
  match threadTmpsLookup w.process parentsTracee with
  | none => .error .nullDereference
  | some tmps =>
    if hasBit cloneFlags CLONE_FILES then
      -- shared file descriptor table
      let data := ⟨tmps.fdTable, some tmps.shareCount, some tmps.fdMutex⟩
      .ok { w with started := w.started.insert tracee data }
    else do
      -- unshared file descriptor table
      let fdTable := w.process.heap.tables.next
      let heap ← w.process.heap.deepCopy tmps.fdTable tmps.fdMutex
      .ok ⟨{ w.process with heap }, w.started.insert tracee ⟨fdTable, none, none⟩⟩

/-- `thread_func` up to `start_tracer`: the thread enters the record of its tracee.
A thread that has not been started does nothing. -/
def threadFunc (w : World) (tracee : CInt) (block : ThreadTmps) : Except Abort World :=
  match w.started.lookup tracee with
  | none => .ok w
  | some data => do
    let process ←
      threadTmpsInsert w.process tracee block data.fdTable data.shareCount data.fdMutex
    .ok ⟨process, w.started.erase tracee⟩

/-- `handle_execve_return` on the record of the tracee. -/
def execveReturn (w : World) (tracee : CInt) : Except Abort World :=
  match threadTmpsLookup w.process tracee with
  | none => .error .nullDereference
  | some tmps => do
    let (heap, tmps) ← handleExecveReturn w.process.heap tmps
    .ok { w with process := ⟨heap, w.process.threadTmpsTable.insert tracee tmps⟩ }

/-- `thread_tmps_remove` at the end of `start_tracer`. -/
def tracerEnd (w : World) (tracee : CInt) : Except Abort World := do
  let (_, process) ← threadTmpsRemove w.process tracee
  .ok { w with process }

/-- `main_tracer` up to `start_tracer`: the first tracee starts with a new table. -/
def mainTracer (tracee : CInt) (block : ThreadTmps) : Except Abort World := do
  let heap : Heap := ⟨Arena.empty.alloc fdTableCreate, Arena.empty, Arena.empty⟩
  let process ← threadTmpsInsert ⟨heap, ∅⟩ tracee block 0 none none
  .ok ⟨process, ∅⟩

/-- The table of a tracee: that of its record, or that of its start data. -/
def World.tableOf (w : World) (tracee : CInt) : Option ℕ :=
  match w.process.threadTmpsTable.lookup tracee with
  | some tmps => some tmps.fdTable
  | none => (w.started.lookup tracee).map StartData.fdTable

/-! ### The invariant -/

/-- The table and the mutex are alive. -/
def Heap.Live (heap : Heap) (fdTable fdMutex : ℕ) : Prop :=
  (heap.tables.cell fdTable).isSome ∧ heap.mutexes.cell fdMutex = some ()

/-- Two records have no reference in common. -/
structure ThreadTmps.Apart (tmps tmps' : ThreadTmps) : Prop where
  fdTable : tmps'.fdTable ≠ tmps.fdTable
  shareCount : tmps'.shareCount ≠ tmps.shareCount
  fdMutex : tmps'.fdMutex ≠ tmps.fdMutex

theorem ThreadTmps.SameRefs.symm {tmps tmps' : ThreadTmps} (h : tmps.SameRefs tmps') :
    tmps'.SameRefs tmps :=
  ⟨h.fdTable.symm, h.shareCount.symm, h.fdMutex.symm⟩

theorem ThreadTmps.Apart.symm {tmps tmps' : ThreadTmps} (h : tmps.Apart tmps') :
    tmps'.Apart tmps :=
  ⟨h.fdTable.symm, h.shareCount.symm, h.fdMutex.symm⟩

/-- The start data has what a record refers to. -/
def World.HandedOver (w : World) (data : StartData) : Prop :=
  ∃ id tmps, w.process.threadTmpsTable.lookup id = some tmps ∧
    data = ⟨tmps.fdTable, some tmps.shareCount, some tmps.fdMutex⟩

/-- The start data has a table that nobody else refers to. -/
structure World.Owns (w : World) (id : CInt) (data : StartData) : Prop where
  unshared : data.shareCount = none ∧ data.fdMutex = none
  live : (w.process.heap.tables.cell data.fdTable).isSome
  records : ∀ id' tmps, w.process.threadTmpsTable.lookup id' = some tmps →
    tmps.fdTable ≠ data.fdTable
  started : ∀ id' data', w.started.lookup id' = some data' → data'.fdTable = data.fdTable →
    id' = id

/-- **The invariant:** everything that is referred to is alive, and the counters
hold the numbers of the records. -/
structure World.Sound (w : World) : Prop where
  live : ∀ id tmps, w.process.threadTmpsTable.lookup id = some tmps →
    w.process.heap.Live tmps.fdTable tmps.fdMutex
  counted : Counted ThreadTmps.shareCount w.process.threadTmpsTable w.process.heap.counts
  coherent : ∀ id id' tmps tmps', w.process.threadTmpsTable.lookup id = some tmps →
    w.process.threadTmpsTable.lookup id' = some tmps' → tmps.SameRefs tmps' ∨ tmps.Apart tmps'
  started : ∀ id data, w.started.lookup id = some data → w.HandedOver data ∨ w.Owns id data
  unregistered : ∀ id data, w.started.lookup id = some data →
    w.process.threadTmpsTable.lookup id = none

namespace World.Sound

variable {heap : Heap} {recs : Finmap fun _ : CInt => ThreadTmps}
  {started : Finmap fun _ : CInt => StartData} {id : CInt} {tmps : ThreadTmps}

/-- Records with one counter have the same references. -/
theorem sameRefs (h : Sound ⟨⟨heap, recs⟩, started⟩) (hid : recs.lookup id = some tmps) {id' : CInt}
    {tmps' : ThreadTmps} (hid' : recs.lookup id' = some tmps')
    (heq : tmps'.shareCount = tmps.shareCount) : tmps.SameRefs tmps' :=
  (h.coherent id id' tmps tmps' hid hid').resolve_right fun hapart => hapart.shareCount heq

/-- The table of start data is alive. -/
theorem started_live (h : Sound ⟨⟨heap, recs⟩, started⟩) {data : StartData}
    (hid : started.lookup id = some data) : (heap.tables.cell data.fdTable).isSome := by
  rcases h.started id data hid with ⟨id', tmps, hrec, rfl⟩ | howns
  · exact (h.live id' tmps hrec).1
  · exact howns.live

/-! ### Start data comes and goes -/

/-- A child is given start data. -/
theorem insertStarted (h : Sound ⟨⟨heap, recs⟩, started⟩) {child : CInt}
    (hchild : recs.lookup child = none) {data : StartData}
    (hdata : World.HandedOver ⟨⟨heap, recs⟩, started⟩ data ∨
      World.Owns ⟨⟨heap, recs⟩, started⟩ child data)
    (hapart : ∀ x data', started.lookup x = some data' →
      World.Owns ⟨⟨heap, recs⟩, started⟩ x data' → data.fdTable ≠ data'.fdTable) :
    Sound ⟨⟨heap, recs⟩, started.insert child data⟩ where
  live := h.live
  counted := h.counted
  coherent := h.coherent
  started x data' hx := by
    rw [lookup_insert_eq] at hx
    split_ifs at hx with hxc
    · obtain rfl := Option.some.inj hx
      refine hdata.imp (fun hover => hover) fun howns => ?_
      refine ⟨howns.unshared, howns.live, howns.records, fun y data' hy heq => ?_⟩
      rw [lookup_insert_eq] at hy
      split_ifs at hy with hyc
      · exact hyc.trans hxc.symm
      · exact (howns.started y data' hy heq).trans hxc.symm
    · refine (h.started x data' hx).imp (fun hover => hover) fun howns => ?_
      refine ⟨howns.unshared, howns.live, howns.records, fun y data₁ hy heq => ?_⟩
      rw [lookup_insert_eq] at hy
      split_ifs at hy
      · obtain rfl := Option.some.inj hy
        exact absurd heq (hapart x data' hx howns)
      · exact howns.started y data₁ hy heq
  unregistered x data' hx := by
    rw [lookup_insert_eq] at hx
    split_ifs at hx with hxc
    · rw [hxc]
      exact hchild
    · exact h.unregistered x data' hx

/-- A child is handed what a record refers to. -/
theorem startShared (h : Sound ⟨⟨heap, recs⟩, started⟩) (hid : recs.lookup id = some tmps)
    {child : CInt} (hchild : recs.lookup child = none) :
    Sound ⟨⟨heap, recs⟩,
      started.insert child ⟨tmps.fdTable, some tmps.shareCount, some tmps.fdMutex⟩⟩ :=
  h.insertStarted hchild (Or.inl ⟨id, tmps, hid, rfl⟩) fun _ _ _ howns =>
    howns.records id tmps hid

/-- A table is allocated. -/
theorem allocTable (h : Sound ⟨⟨heap, recs⟩, started⟩) (t : FdTable) :
    Sound ⟨⟨{ heap with tables := heap.tables.alloc t }, recs⟩, started⟩ where
  live x tmps hx := by
    obtain ⟨htable, hmutex⟩ := h.live x tmps hx
    obtain ⟨u, hu⟩ := Option.isSome_iff_exists.mp htable
    exact ⟨by rw [Arena.alloc_cell_of_some hu]; rfl, hmutex⟩
  counted := h.counted
  coherent := h.coherent
  started x data hx := by
    refine (h.started x data hx).imp (fun hover => hover) fun howns => ?_
    refine ⟨howns.unshared, ?_, howns.records, howns.started⟩
    obtain ⟨u, hu⟩ := Option.isSome_iff_exists.mp howns.live
    exact (congrArg Option.isSome (Arena.alloc_cell_of_some hu)).trans rfl
  unregistered := h.unregistered

/-- A child is given a table that nobody refers to. -/
theorem startOwning (h : Sound ⟨⟨heap, recs⟩, started⟩) {a : ℕ}
    (hlive : (heap.tables.cell a).isSome)
    (hrecs : ∀ x tmps, recs.lookup x = some tmps → tmps.fdTable ≠ a)
    (hstarted : ∀ x data, started.lookup x = some data → data.fdTable ≠ a)
    {child : CInt} (hchild : recs.lookup child = none) :
    Sound ⟨⟨heap, recs⟩, started.insert child ⟨a, none, none⟩⟩ := by
  refine h.insertStarted hchild (Or.inr ⟨⟨rfl, rfl⟩, hlive, hrecs, fun x data hx heq => ?_⟩) ?_
  · exact absurd heq (hstarted x data hx)
  · exact fun x data hx _ => (hstarted x data hx).symm

/-- Start data is used up. -/
theorem eraseStarted (h : Sound ⟨⟨heap, recs⟩, started⟩) (child : CInt) :
    Sound ⟨⟨heap, recs⟩, started.erase child⟩ where
  live := h.live
  counted := h.counted
  coherent := h.coherent
  started x data hx := by
    rw [lookup_erase_eq] at hx
    split_ifs at hx
    refine (h.started x data hx).imp (fun hover => hover) fun howns => ?_
    refine ⟨howns.unshared, howns.live, howns.records, fun y data' hy heq => ?_⟩
    rw [lookup_erase_eq] at hy
    split_ifs at hy
    exact howns.started y data' hy heq
  unregistered x data hx := by
    rw [lookup_erase_eq] at hx
    split_ifs at hx
    exact h.unregistered x data hx

/-! ### Records come and go -/

/-- The contents of a table change. -/
theorem setTable (h : Sound ⟨⟨heap, recs⟩, started⟩) (a : ℕ) (t : FdTable) :
    Sound ⟨⟨heap.setTable a t, recs⟩, started⟩ := by
  have hcell : ∀ b, (heap.tables.cell b).isSome → ((heap.setTable a t).tables.cell b).isSome := by
    intro b hb
    by_cases hba : b = a
    · obtain ⟨u, hu⟩ := Option.isSome_iff_exists.mp hb
      rw [hba] at hu ⊢
      exact (congrArg Option.isSome (Arena.write_cell_self hu)).trans rfl
    · exact (congrArg Option.isSome (Arena.write_cell_ne _ _ hba)).trans hb
  refine ⟨fun x tmps hx => ?_, h.counted, h.coherent, fun x data hx => ?_, h.unregistered⟩
  · exact ⟨hcell _ (h.live x tmps hx).1, (h.live x tmps hx).2⟩
  · exact (h.started x data hx).imp (fun hover => hover) fun howns =>
      ⟨howns.unshared, hcell _ howns.live, howns.records, howns.started⟩

/-- A record is entered, and the heap keeps what is alive. -/
theorem insertRecord (h : Sound ⟨⟨heap, recs⟩, started⟩) {child : CInt}
    (hchild : recs.lookup child = none) (hnone : started.lookup child = none) {heap' : Heap}
    (htables : heap'.tables = heap.tables)
    (hmutexes : ∀ a, heap.mutexes.cell a = some () → heap'.mutexes.cell a = some ())
    {tmps' : ThreadTmps} (hlive : heap'.Live tmps'.fdTable tmps'.fdMutex)
    (hcounted : Counted ThreadTmps.shareCount (recs.insert child tmps') heap'.counts)
    (hcoherent : ∀ x tmps₁, recs.lookup x = some tmps₁ →
      tmps'.SameRefs tmps₁ ∨ tmps'.Apart tmps₁)
    (hapart : ∀ x data, started.lookup x = some data →
      World.Owns ⟨⟨heap, recs⟩, started⟩ x data → tmps'.fdTable ≠ data.fdTable) :
    Sound ⟨⟨heap', recs.insert child tmps'⟩, started⟩ where
  live x tmps₁ hx := by
    rw [lookup_insert_eq] at hx
    split_ifs at hx
    · obtain rfl := Option.some.inj hx
      exact hlive
    · obtain ⟨htable, hmutex⟩ := h.live x tmps₁ hx
      exact ⟨by rw [htables]; exact htable, hmutexes _ hmutex⟩
  counted := hcounted
  coherent x y tmps₁ tmps₂ hx hy := by
    rw [lookup_insert_eq] at hx hy
    split_ifs at hx hy
    · obtain rfl := Option.some.inj hx
      obtain rfl := Option.some.inj hy
      exact Or.inl ⟨rfl, rfl, rfl⟩
    · obtain rfl := Option.some.inj hx
      exact hcoherent y tmps₂ hy
    · obtain rfl := Option.some.inj hy
      exact (hcoherent x tmps₁ hx).imp ThreadTmps.SameRefs.symm ThreadTmps.Apart.symm
    · exact h.coherent x y tmps₁ tmps₂ hx hy
  started x data hx := by
    refine (h.started x data hx).imp ?_ fun howns => ?_
    · rintro ⟨y, tmps₁, hy, rfl⟩
      have hne : y ≠ child := by
        rintro rfl
        rw [hchild] at hy
        cases hy
      exact ⟨y, tmps₁, (Finmap.lookup_insert_of_ne _ hne).trans hy, rfl⟩
    · have htable : (heap'.tables.cell data.fdTable).isSome := by
        rw [htables]
        exact howns.live
      refine ⟨howns.unshared, htable, fun y tmps₁ hy => ?_, howns.started⟩
      change (recs.insert child tmps').lookup y = _ at hy
      rw [lookup_insert_eq] at hy
      split_ifs at hy
      · obtain rfl := Option.some.inj hy
        exact hapart x data hx howns
      · exact howns.records y tmps₁ hy
  unregistered x data hx := by
    have hne : x ≠ child := by
      rintro rfl
      rw [hnone] at hx
      cases hx
    exact (Finmap.lookup_insert_of_ne _ hne).trans (h.unregistered x data hx)

/-- **A record joins** those that refer to a table. -/
theorem join (h : Sound ⟨⟨heap, recs⟩, started⟩) (hid : recs.lookup id = some tmps)
    {child : CInt} (hchild : recs.lookup child = none) (hstarted : started.lookup child = none)
    {tmps' : ThreadTmps} (hrefs : tmps.SameRefs tmps') :
    Sound ⟨⟨⟨heap.tables, heap.counts.write tmps.shareCount
        (holders ThreadTmps.shareCount recs tmps.shareCount + 1), heap.mutexes⟩,
      recs.insert child tmps'⟩, started⟩ := by
  refine h.insertRecord hchild hstarted ?_ ?_ ?_
    (h.counted.insert_shared hchild hid hrefs.shareCount) (fun x tmps₁ hx => ?_)
    fun x data _ howns => ?_
  · rfl
  · exact fun _ hmutex => hmutex
  · rw [hrefs.fdTable, hrefs.fdMutex]
    exact h.live id tmps hid
  · rcases h.coherent id x tmps tmps₁ hid hx with ⟨h₁, h₂, h₃⟩ | ⟨h₁, h₂, h₃⟩
    · exact Or.inl ⟨by rw [h₁, hrefs.fdTable], by rw [h₂, hrefs.shareCount],
        by rw [h₃, hrefs.fdMutex]⟩
    · exact Or.inr ⟨by rwa [hrefs.fdTable], by rwa [hrefs.shareCount], by rwa [hrefs.fdMutex]⟩
  · rw [hrefs.fdTable]
    exact howns.records id tmps hid

/-- **A record starts** with a table that nobody else refers to, and with a counter
and a mutex of its own. -/
theorem enter (h : Sound ⟨⟨heap, recs⟩, started⟩) {a : ℕ} (child : CInt) (tmps' : ThreadTmps)
    (hlive : (heap.tables.cell a).isSome)
    (hrecs : ∀ x tmps, recs.lookup x = some tmps → tmps.fdTable ≠ a)
    (hstarted : ∀ x data, started.lookup x = some data → data.fdTable ≠ a)
    (hchild : recs.lookup child = none) (hnone : started.lookup child = none)
    (ha : tmps'.fdTable = a) (hcount : tmps'.shareCount = heap.counts.next)
    (hmutex : tmps'.fdMutex = heap.mutexes.next) :
    Sound ⟨⟨⟨heap.tables, (heap.counts.alloc 0).write heap.counts.next 1,
      heap.mutexes.alloc ()⟩, recs.insert child tmps'⟩, started⟩ := by
  refine h.insertRecord hchild hnone ?_ (fun _ => Arena.alloc_cell_of_some) ?_
    (h.counted.insert_fresh hchild hcount) (fun x tmps₁ hx => Or.inr ?_)
    fun x data hx _ => ?_
  · rfl
  · rw [ha, hmutex]
    exact ⟨hlive, Arena.alloc_cell_self _ _⟩
  · exact ⟨by rw [ha]; exact hrecs x tmps₁ hx,
      by rw [hcount]; exact Arena.ne_next (h.counted x tmps₁ hx),
      by rw [hmutex]; exact Arena.ne_next (h.live x tmps₁ hx).2⟩
  · rw [ha]
    exact (hstarted x data hx).symm

/-- A record is taken out, and the heap keeps what the others refer to. -/
theorem eraseRecord (h : Sound ⟨⟨heap, recs⟩, started⟩) {heap' : Heap}
    (hlive : ∀ x tmps₁, x ≠ id → recs.lookup x = some tmps₁ →
      heap'.Live tmps₁.fdTable tmps₁.fdMutex)
    (hcounted : Counted ThreadTmps.shareCount (recs.erase id) heap'.counts)
    (hover : ∀ x data, started.lookup x = some data →
      World.HandedOver ⟨⟨heap, recs⟩, started⟩ data →
      World.HandedOver ⟨⟨heap', recs.erase id⟩, started⟩ data)
    (howned : ∀ x data, World.Owns ⟨⟨heap, recs⟩, started⟩ x data →
      (heap'.tables.cell data.fdTable).isSome) :
    Sound ⟨⟨heap', recs.erase id⟩, started⟩ where
  live x tmps₁ hx := by
    rw [lookup_erase_eq] at hx
    split_ifs at hx with hne
    exact hlive x tmps₁ hne hx
  counted := hcounted
  coherent x y tmps₁ tmps₂ hx hy := by
    rw [lookup_erase_eq] at hx hy
    split_ifs at hx hy
    exact h.coherent x y tmps₁ tmps₂ hx hy
  started x data hx := by
    refine (h.started x data hx).imp (hover x data hx) fun howns => ?_
    refine ⟨howns.unshared, howned x data howns, fun y tmps₁ hy => ?_, howns.started⟩
    change (recs.erase id).lookup y = _ at hy
    rw [lookup_erase_eq] at hy
    split_ifs at hy
    exact howns.records y tmps₁ hy
  unregistered x data hx := by
    rw [lookup_erase_eq]
    split_ifs
    · rfl
    · exact h.unregistered x data hx

/-- **A record leaves** others that refer to the same table. -/
theorem leave (h : Sound ⟨⟨heap, recs⟩, started⟩) (hid : recs.lookup id = some tmps)
    (htwo : 1 < holders ThreadTmps.shareCount recs tmps.shareCount) :
    Sound ⟨⟨⟨heap.tables, heap.counts.write tmps.shareCount
        (holders ThreadTmps.shareCount recs tmps.shareCount - 1), heap.mutexes⟩,
      recs.erase id⟩, started⟩ := by
  refine h.eraseRecord (fun x tmps₁ _ hx => h.live x tmps₁ hx) (h.counted.erase hid) ?_
    fun x data howns => howns.live
  rintro x data - ⟨y, tmps₁, hy, rfl⟩
  by_cases hne : y = id
  · subst hne
    obtain rfl := Option.some.inj (hid.symm.trans hy)
    obtain ⟨z, tmps₂, hz, hlook, hcount⟩ := exists_other_holder hid htwo
    have hrefs := h.sameRefs hid hlook hcount
    refine ⟨z, tmps₂, (Finmap.lookup_erase_ne hz).trans hlook, ?_⟩
    rw [hrefs.fdTable, hrefs.shareCount, hrefs.fdMutex]
  · exact ⟨y, tmps₁, (Finmap.lookup_erase_ne hne).trans hy, rfl⟩

/-- **The last record leaves**, and what it refers to is freed: that is sound if no
start data has been handed it. -/
theorem leaveLast (h : Sound ⟨⟨heap, recs⟩, started⟩) (hid : recs.lookup id = some tmps)
    (hone : holders ThreadTmps.shareCount recs tmps.shareCount = 1)
    (hkept : ∀ x data, started.lookup x = some data → data.shareCount ≠ some tmps.shareCount)
    (n : ℤ) :
    Sound ⟨⟨⟨heap.tables.free tmps.fdTable,
        (heap.counts.write tmps.shareCount n).free tmps.shareCount,
        heap.mutexes.free tmps.fdMutex⟩, recs.erase id⟩, started⟩ := by
  refine h.eraseRecord (fun x tmps₁ hne hx => ?_) (h.counted.erase_free hid hone n) ?_
    fun x data howns => ?_
  · have hapart : tmps.Apart tmps₁ := by
      refine (h.coherent id x tmps tmps₁ hid hx).resolve_left fun hrefs => hne ?_
      exact eq_of_holders_eq_one hid hone hx hrefs.shareCount
    exact ⟨(congrArg Option.isSome (Arena.free_cell_ne _ hapart.fdTable)).trans
        (h.live x tmps₁ hx).1,
      (Arena.free_cell_ne _ hapart.fdMutex).trans (h.live x tmps₁ hx).2⟩
  · rintro x data hx ⟨y, tmps₁, hy, rfl⟩
    have hne : y ≠ id := by
      rintro rfl
      obtain rfl := Option.some.inj (hid.symm.trans hy)
      exact hkept x _ hx rfl
    exact ⟨y, tmps₁, (Finmap.lookup_erase_ne hne).trans hy, rfl⟩
  · have hne : data.fdTable ≠ tmps.fdTable := (howns.records id tmps hid).symm
    exact (congrArg Option.isSome (Arena.free_cell_ne _ hne)).trans howns.live

end World.Sound

/-! ### What the functions do to a sound world -/

namespace World

/-- A record decides which table its tracee has. -/
theorem tableOf_of_record {w : World} {id : CInt} {tmps : ThreadTmps}
    (h : w.process.threadTmpsTable.lookup id = some tmps) : w.tableOf id = some tmps.fdTable := by
  rw [tableOf, h]

theorem tableOf_of_started {w : World} {id : CInt} {data : StartData} (hsound : w.Sound)
    (h : w.started.lookup id = some data) : w.tableOf id = some data.fdTable := by
  rw [tableOf, hsound.unregistered id data h, h, Option.map_some]

theorem tableOf_congr {w w' : World} {id : CInt}
    (hrec : w'.process.threadTmpsTable.lookup id = w.process.threadTmpsTable.lookup id)
    (hstarted : w'.started.lookup id = w.started.lookup id) : w'.tableOf id = w.tableOf id := by
  rw [tableOf, tableOf, hrec, hstarted]

/-- The table of a tracee is alive. -/
theorem Sound.tableOf_live {w : World} (h : w.Sound) {id : CInt} {a : ℕ}
    (ha : w.tableOf id = some a) : (w.process.heap.tables.cell a).isSome := by
  rw [tableOf] at ha
  cases hrec : w.process.threadTmpsTable.lookup id with
  | some tmps =>
      rw [hrec] at ha
      obtain rfl := Option.some.inj ha
      exact (h.live id tmps hrec).1
  | none =>
      rw [hrec] at ha
      obtain ⟨data, hdata, rfl⟩ := Option.map_eq_some_iff.mp ha
      exact h.started_live hdata

/-- A new table is not the table of any tracee. -/
theorem Sound.tableOf_ne_next {w : World} (h : w.Sound) (id : CInt) :
    w.tableOf id ≠ some w.process.heap.tables.next := fun ha =>
  Arena.ne_next_of_isSome (h.tableOf_live ha) rfl

theorem execveReturn_of_ok {w : World} {id : CInt} {tmps tmps' : ThreadTmps} {heap : Heap}
    (hid : w.process.threadTmpsTable.lookup id = some tmps)
    (hret : handleExecveReturn w.process.heap tmps = .ok (heap, tmps')) :
    execveReturn w id =
      .ok { w with process := ⟨heap, w.process.threadTmpsTable.insert id tmps'⟩ } := by
  simp only [execveReturn, threadTmpsLookup, hid, hret, ok_bind]

theorem tracerEnd_of_ok {w : World} {id : CInt} {tmps : ThreadTmps} {heap : Heap}
    (hid : w.process.threadTmpsTable.lookup id = some tmps)
    (hfree : freeSingleThreadTmps w.process.heap tmps = .ok heap) :
    tracerEnd w id = .ok { w with process := ⟨heap, w.process.threadTmpsTable.erase id⟩ } := by
  simp only [tracerEnd, threadTmpsRemove, hid, hfree, ok_bind]

/-- A thread that is handed a table counts itself. -/
theorem threadFunc_of_handedOver {w : World} {child : CInt} {a count mutex : ℕ} {n : ℤ}
    (hdata : w.started.lookup child = some ⟨a, some count, some mutex⟩)
    (hnone : w.process.threadTmpsTable.lookup child = none)
    (hcount : w.process.heap.counts.cell count = some n) (block : ThreadTmps) :
    threadFunc w child block = .ok ⟨⟨{ w.process.heap with
        counts := w.process.heap.counts.write count (n + 1) },
      w.process.threadTmpsTable.insert child
        { block with fdTable := a, shareCount := count, fdMutex := mutex }⟩,
      w.started.erase child⟩ := by
  have hinc := Heap.atomicInc_of_cell hcount
  simp only [threadFunc, hdata, threadTmpsInsert, hinc, ok_bind, threadTmpsTableInsert, hnone]

/-- A thread that has a table to itself gets a counter and a mutex. -/
theorem threadFunc_of_unshared {w : World} {child : CInt} {a : ℕ}
    (hdata : w.started.lookup child = some ⟨a, none, none⟩)
    (hnone : w.process.threadTmpsTable.lookup child = none) (block : ThreadTmps) :
    threadFunc w child block = .ok ⟨⟨⟨w.process.heap.tables,
        (w.process.heap.counts.alloc 0).write w.process.heap.counts.next 1,
        w.process.heap.mutexes.alloc ()⟩,
      w.process.threadTmpsTable.insert child { block with
        fdTable := a
        shareCount := w.process.heap.counts.next
        fdMutex := w.process.heap.mutexes.next }⟩,
      w.started.erase child⟩ := by
  have hinc : w.process.heap.allocShared.atomicInc w.process.heap.counts.next =
      .ok { w.process.heap.allocShared with
        counts := (w.process.heap.counts.alloc 0).write w.process.heap.counts.next 1 } :=
    Heap.atomicInc_of_cell (n := 0) (Arena.alloc_cell_self _ _)
  simp only [threadFunc, hdata, threadTmpsInsert, hinc, ok_bind, threadTmpsTableInsert, hnone]
  rfl

/-- **The first tracee starts** in a sound world. -/
theorem mainTracer_sound (tracee : CInt) (block : ThreadTmps) :
    ∃ w tmps, mainTracer tracee block = .ok w ∧ w.Sound ∧
      w.process.threadTmpsTable = Finmap.insert tracee tmps ∅ ∧ w.started = ∅ := by
  have hempty : Sound ⟨⟨⟨Arena.empty, Arena.empty, Arena.empty⟩, ∅⟩, ∅⟩ := by
    constructor
    case live | counted | coherent =>
      intro x
      simp
    case started | unregistered =>
      intro x
      simp
  have hsound := (hempty.allocTable fdTableCreate).enter (a := 0) tracee
    { block with fdTable := 0, shareCount := 0, fdMutex := 0 } rfl
    (fun x tmps hx => by simp at hx) (fun x data hx => by simp at hx) (Finmap.lookup_empty _)
    (Finmap.lookup_empty _) rfl rfl rfl
  exact ⟨_, _, rfl, hsound, rfl, rfl⟩

/-- **`threads_add` hands over references or a copy.**  With `CLONE_FILES` the
start data has what the parent's record refers to, without it a new table. -/
theorem Sound.threadsAdd {w : World} (h : w.Sound) {parent child : CInt} {tmps : ThreadTmps}
    (hid : w.process.threadTmpsTable.lookup parent = some tmps)
    (hchild : w.process.threadTmpsTable.lookup child = none) (flags : CInt) :
    ∃ w' data, Iotrace.threadsAdd w child parent flags = .ok w' ∧ w'.Sound ∧
      w'.process.threadTmpsTable = w.process.threadTmpsTable ∧
      w'.started = w.started.insert child data ∧
      if hasBit flags CLONE_FILES = true then
        data = ⟨tmps.fdTable, some tmps.shareCount, some tmps.fdMutex⟩
      else data.shareCount = none ∧ ∀ x, w.tableOf x ≠ some data.fdTable := by
  obtain ⟨⟨heap, recs⟩, started⟩ := w
  have hlookup : threadTmpsLookup ⟨heap, recs⟩ parent = some tmps := hid
  simp only [Iotrace.threadsAdd, hlookup]
  split_ifs with hflag
  · exact ⟨_, _, rfl, h.startShared hid hchild, rfl, rfl, rfl⟩
  · obtain ⟨htable, hmutex⟩ := h.live parent tmps hid
    obtain ⟨t, ht⟩ := Option.isSome_iff_exists.mp htable
    have hcopy := Heap.deepCopy_of_cell ht hmutex
    refine ⟨⟨⟨{ heap with tables := heap.tables.alloc t }, recs⟩,
      started.insert child ⟨heap.tables.next, none, none⟩⟩, ⟨heap.tables.next, none, none⟩,
      by simp only [hcopy, ok_bind], ?_, rfl, rfl, rfl, h.tableOf_ne_next⟩
    refine (h.allocTable t).startOwning (by rw [Arena.alloc_cell_self]; rfl) ?_ ?_ hchild
    · exact fun x tmps₁ hx => Arena.ne_next_of_isSome (h.live x tmps₁ hx).1
    · exact fun x data hx => Arena.ne_next_of_isSome (h.started_live hx)

/-- **`thread_func` enters a record** with the table of the start data. -/
theorem Sound.threadFunc {w : World} (h : w.Sound) {child : CInt} {data : StartData}
    (hdata : w.started.lookup child = some data) (block : ThreadTmps) :
    ∃ w' tmps, Iotrace.threadFunc w child block = .ok w' ∧ w'.Sound ∧
      w'.process.threadTmpsTable = w.process.threadTmpsTable.insert child tmps ∧
      tmps.fdTable = data.fdTable ∧ w'.started = w.started.erase child := by
  obtain ⟨⟨heap, recs⟩, started⟩ := w
  have hdata : started.lookup child = some data := hdata
  have hnone : recs.lookup child = none := h.unregistered child data hdata
  have hgone : (started.erase child).lookup child = none := Finmap.lookup_erase _ _
  rcases h.started child data hdata with ⟨id, tmps, hid, rfl⟩ | howns
  · exact ⟨_, _, threadFunc_of_handedOver hdata hnone (h.counted id tmps hid) block,
      (h.eraseStarted child).join hid hnone hgone ⟨rfl, rfl, rfl⟩, rfl, rfl, rfl⟩
  · obtain ⟨a, count, mutex⟩ := data
    obtain ⟨rfl, rfl⟩ : count = none ∧ mutex = none := howns.unshared
    refine ⟨_, _, threadFunc_of_unshared hdata hnone block,
      (h.eraseStarted child).enter child _ howns.live howns.records ?_ hnone hgone rfl rfl rfl, rfl,
      rfl,
      rfl⟩
    intro x data' hx heq
    rw [lookup_erase_eq] at hx
    split_ifs at hx with hne
    exact hne (howns.started x data' hx heq)

/-- **`handle_execve_return` ends the sharing of a table.**  The tracee keeps its
table if no other record has it, and gets a new one otherwise. -/
theorem Sound.execveReturn {w : World} (h : w.Sound) {id : CInt} {tmps : ThreadTmps}
    (hid : w.process.threadTmpsTable.lookup id = some tmps) :
    ∃ w' tmps', Iotrace.execveReturn w id = .ok w' ∧ w'.Sound ∧
      w'.process.threadTmpsTable = w.process.threadTmpsTable.insert id tmps' ∧
      w'.started = w.started ∧
      (holders ThreadTmps.shareCount w.process.threadTmpsTable tmps.shareCount = 1 ∧
        tmps' = tmps ∨ ∀ x, w.tableOf x ≠ some tmps'.fdTable) := by
  obtain ⟨⟨heap, recs⟩, started⟩ := w
  have hid : recs.lookup id = some tmps := hid
  obtain ⟨htable, hmutex⟩ := h.live id tmps hid
  obtain ⟨t, ht⟩ := Option.isSome_iff_exists.mp htable
  have hcount := h.counted id tmps hid
  have hpos := holders_pos (r := ThreadTmps.shareCount) hid
  rcases Nat.lt_or_ge 1 (holders ThreadTmps.shareCount recs tmps.shareCount) with htwo | hone
  · have hret := handleExecveReturn_of_shared ht hmutex hcount (by exact_mod_cast htwo)
    have hleft := (h.leave hid htwo).allocTable t
    refine ⟨_, _, execveReturn_of_ok hid hret, ?_, rfl, rfl, Or.inr h.tableOf_ne_next⟩
    have hentered := hleft.enter (a := heap.tables.next) id
      { tmps with
        fdTable := heap.tables.next
        shareCount := heap.counts.next
        fdMutex := heap.mutexes.next } (by rw [Arena.alloc_cell_self]; rfl)
      (fun x tmps₁ hx => ?_) (fun x data hx => Arena.ne_next_of_isSome (h.started_live hx))
      (Finmap.lookup_erase _ _) ?_ rfl rfl rfl
    · rw [insert_erase_self] at hentered
      exact hentered.setTable heap.tables.next (fdTableRemoveCloexec t)
    · rw [lookup_erase_eq] at hx
      split_ifs at hx
      exact Arena.ne_next_of_isSome (h.live x tmps₁ hx).1
    · by_contra hsome
      obtain ⟨data, hdata⟩ := Option.ne_none_iff_exists'.mp hsome
      rw [h.unregistered id data hdata] at hid
      cases hid
  · have hret := handleExecveReturn_of_private ht hmutex hcount (by exact_mod_cast hone)
    have hone : holders ThreadTmps.shareCount recs tmps.shareCount = 1 := by omega
    refine ⟨_, tmps, execveReturn_of_ok hid hret, ?_, rfl, rfl, Or.inl ⟨hone, rfl⟩⟩
    rw [insert_eq_self_iff.mpr hid]
    exact h.setTable tmps.fdTable (fdTableRemoveCloexec t)

/-- **`thread_tmps_remove` gives up a reference.**  Where it is the last one of a
record, no start data may have been handed it. -/
theorem Sound.tracerEnd {w : World} (h : w.Sound) {id : CInt} {tmps : ThreadTmps}
    (hid : w.process.threadTmpsTable.lookup id = some tmps)
    (hkept : holders ThreadTmps.shareCount w.process.threadTmpsTable tmps.shareCount = 1 →
      ∀ x data, w.started.lookup x = some data → data.shareCount ≠ some tmps.shareCount) :
    ∃ w', Iotrace.tracerEnd w id = .ok w' ∧ w'.Sound ∧
      w'.process.threadTmpsTable = w.process.threadTmpsTable.erase id ∧
      w'.started = w.started := by
  obtain ⟨⟨heap, recs⟩, started⟩ := w
  have hid : recs.lookup id = some tmps := hid
  obtain ⟨htable, hmutex⟩ := h.live id tmps hid
  obtain ⟨t, ht⟩ := Option.isSome_iff_exists.mp htable
  have hcount := h.counted id tmps hid
  have hpos := holders_pos (r := ThreadTmps.shareCount) hid
  rcases Nat.lt_or_ge 1 (holders ThreadTmps.shareCount recs tmps.shareCount) with htwo | hone
  · have hfree := freeSingleThreadTmps_of_shared hcount (by exact_mod_cast htwo)
    exact ⟨_, tracerEnd_of_ok hid hfree, h.leave hid htwo, rfl, rfl⟩
  · have hone : holders ThreadTmps.shareCount recs tmps.shareCount = 1 := by omega
    have hcount : heap.counts.cell tmps.shareCount = some 1 := by
      rw [h.counted id tmps hid, hone]
      rfl
    have hfree := freeSingleThreadTmps_of_last ht hmutex hcount
    exact ⟨_, tracerEnd_of_ok hid hfree, h.leaveLast hid hone (hkept hone) 0, rfl, rfl⟩

end World

end Iotrace
