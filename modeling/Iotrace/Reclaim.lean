/-
# What is given back

Descriptor tables, counters and mutexes are allocated when a tracee starts with a table
of its own or leaves a shared one, and freed with the last record that refers to them.
`World.Reclaimed` says that nothing else is left behind: every table that is alive is the
table of a tracee, and every counter and mutex is that of a record.

A run in which the counted references outlast all hand-overs keeps that, together with
`World.Sound`, which says the opposite: what is referred to is alive.  When the records
of all tracees are gone, the heap is empty (`nothing_leaks`).
-/

import Iotrace.WorldSteps

namespace Iotrace

open Runs RefCount FiniteMap

namespace World

/-- Everything that is alive belongs to a tracee. -/
structure Reclaimed (w : World) : Prop where
  tables : ∀ a, (w.process.heap.tables.cell a).isSome → ∃ id, w.tableOf id = some a
  counts : ∀ a, (w.process.heap.counts.cell a).isSome →
    ∃ id tmps, w.process.threadTmpsTable.lookup id = some tmps ∧ tmps.shareCount = a
  mutexes : ∀ a, (w.process.heap.mutexes.cell a).isSome →
    ∃ id tmps, w.process.threadTmpsTable.lookup id = some tmps ∧ tmps.fdMutex = a

namespace Reclaimed

variable {heap : Heap} {recs : Finmap fun _ : CInt => ThreadTmps}
  {started : Finmap fun _ : CInt => StartData} {id child : CInt} {tmps : ThreadTmps}

/-- The tables of the other tracees are not touched by a change of one. -/
theorem tableOf_insert {tmps' : ThreadTmps} {heap' : Heap} {q : CInt} (hq : q ≠ id) :
    tableOf ⟨⟨heap', recs.insert id tmps'⟩, started⟩ q =
      tableOf ⟨⟨heap, recs⟩, started⟩ q :=
  tableOf_congr (Finmap.lookup_insert_of_ne _ hq) rfl

/-- **A child is given start data.** -/
theorem threadsAdd (h : Reclaimed ⟨⟨heap, recs⟩, started⟩)
    (hsound : Sound ⟨⟨heap, recs⟩, started⟩) (hid : recs.lookup id = some tmps)
    (hchild : recs.lookup child = none) (hnone : started.lookup child = none) {flags : CInt}
    {w' : World} (hstep : Iotrace.threadsAdd ⟨⟨heap, recs⟩, started⟩ child id flags = .ok w') :
    w'.Reclaimed := by
  have hothers : ∀ {heap' : Heap} {data : StartData} {a : ℕ},
      (∃ q, tableOf ⟨⟨heap, recs⟩, started⟩ q = some a) →
        ∃ q, tableOf ⟨⟨heap', recs⟩, started.insert child data⟩ q = some a := by
    rintro heap' data a ⟨q, hq⟩
    have hne : q ≠ child := by
      rintro rfl
      rw [tableOf] at hq
      simp only [hchild, hnone, Option.map_none] at hq
      cases hq
    have htable : tableOf ⟨⟨heap', recs⟩, started.insert child data⟩ q =
        tableOf ⟨⟨heap, recs⟩, started⟩ q :=
      tableOf_congr rfl (Finmap.lookup_insert_of_ne _ hne)
    exact ⟨q, htable.trans hq⟩
  rcases hsound.threadsAdd_cases hid child flags with ⟨-, hstep'⟩ | ⟨-, t, -, hstep'⟩
  · obtain rfl := Except.ok.inj (hstep.symm.trans hstep')
    exact ⟨fun a ha => hothers (h.tables a ha), h.counts, h.mutexes⟩
  · obtain rfl := Except.ok.inj (hstep.symm.trans hstep')
    refine ⟨fun a ha => ?_, h.counts, h.mutexes⟩
    by_cases hnext : a = heap.tables.next
    · refine ⟨child, ?_⟩
      rw [tableOf]
      simp only [hchild, Finmap.lookup_insert, Option.map_some, hnext]
    · rw [Arena.alloc_cell_ne _ _ hnext] at ha
      exact hothers (h.tables a ha)

/-- **A thread enters the record of its tracee.** -/
theorem threadFunc (h : Reclaimed ⟨⟨heap, recs⟩, started⟩)
    (hsound : Sound ⟨⟨heap, recs⟩, started⟩) {data : StartData}
    (hdata : started.lookup child = some data) {block : ThreadTmps} {w' : World}
    (hstep : Iotrace.threadFunc ⟨⟨heap, recs⟩, started⟩ child block = .ok w') :
    w'.Reclaimed := by
  have hnone : recs.lookup child = none := hsound.unregistered child data hdata
  have htables : ∀ {heap' : Heap} {tmps' : ThreadTmps} {a : ℕ}, tmps'.fdTable = data.fdTable →
      (∃ q, tableOf ⟨⟨heap, recs⟩, started⟩ q = some a) →
        ∃ q, tableOf ⟨⟨heap', recs.insert child tmps'⟩, started.erase child⟩ q = some a := by
    rintro heap' tmps' a hfd ⟨q, hq⟩
    refine ⟨q, ?_⟩
    by_cases hne : q = child
    · rw [hne] at hq ⊢
      rw [tableOf_of_started hsound hdata] at hq
      rw [tableOf_of_record (Finmap.lookup_insert _), hfd]
      exact hq
    · exact (tableOf_congr (Finmap.lookup_insert_of_ne _ hne)
        (Finmap.lookup_erase_ne hne)).trans hq
  rcases hsound.threadFunc_cases hdata block with ⟨id, tmps, hid, rfl, hstep'⟩ | ⟨howns, hstep'⟩
  · obtain rfl := Except.ok.inj (hstep.symm.trans hstep')
    refine ⟨fun a ha => htables rfl (h.tables a ha), fun a ha => ?_, fun a ha => ?_⟩
    · rw [Arena.write_cell_isSome] at ha
      obtain ⟨x, tmps₁, hx, hcount⟩ := h.counts a ha
      exact ⟨x, tmps₁, lookup_insert_of_some hnone hx _, hcount⟩
    · obtain ⟨x, tmps₁, hx, hmutex⟩ := h.mutexes a ha
      exact ⟨x, tmps₁, lookup_insert_of_some hnone hx _, hmutex⟩
  · obtain rfl := Except.ok.inj (hstep.symm.trans hstep')
    refine ⟨fun a ha => htables rfl (h.tables a ha), fun a ha => ?_, fun a ha => ?_⟩
    · rw [Arena.write_cell_isSome] at ha
      by_cases hnext : a = heap.counts.next
      · exact ⟨child, _, Finmap.lookup_insert _, hnext.symm⟩
      · rw [Arena.alloc_cell_ne _ _ hnext] at ha
        obtain ⟨x, tmps₁, hx, hcount⟩ := h.counts a ha
        exact ⟨x, tmps₁, lookup_insert_of_some hnone hx _, hcount⟩
    · by_cases hnext : a = heap.mutexes.next
      · exact ⟨child, _, Finmap.lookup_insert _, hnext.symm⟩
      · rw [Arena.alloc_cell_ne _ _ hnext] at ha
        obtain ⟨x, tmps₁, hx, hmutex⟩ := h.mutexes a ha
        exact ⟨x, tmps₁, lookup_insert_of_some hnone hx _, hmutex⟩

/-- What the record of a tracee refers to together with others has another record. -/
theorem other_record (hsound : Sound ⟨⟨heap, recs⟩, started⟩) (hid : recs.lookup id = some tmps)
    (htwo : 1 < holders ThreadTmps.shareCount recs tmps.shareCount) :
    ∃ x tmps₁, x ≠ id ∧ recs.lookup x = some tmps₁ ∧ tmps.SameRefs tmps₁ := by
  obtain ⟨x, tmps₁, hne, hx, hcount⟩ := exists_other_holder hid htwo
  exact ⟨x, tmps₁, hne, hx, hsound.sameRefs hid hx hcount⟩

/-- Every table but one that a tracee has alone belongs to some other tracee. -/
theorem table_elsewhere (hsound : Sound ⟨⟨heap, recs⟩, started⟩)
    (hid : recs.lookup id = some tmps) {a : ℕ}
    (ha : ∃ q, tableOf ⟨⟨heap, recs⟩, started⟩ q = some a)
    (hshared : a = tmps.fdTable → 1 < holders ThreadTmps.shareCount recs tmps.shareCount) :
    ∃ q, q ≠ id ∧ tableOf ⟨⟨heap, recs⟩, started⟩ q = some a := by
  obtain ⟨q, hq⟩ := ha
  by_cases hne : q = id
  · rw [hne, tableOf_of_record hid] at hq
    obtain ⟨x, tmps₁, hx, hlook, hrefs⟩ :=
      other_record hsound hid (hshared (Option.some.inj hq).symm)
    exact ⟨x, hx, by rw [tableOf_of_record hlook, hrefs.fdTable]; exact hq⟩
  · exact ⟨q, hne, hq⟩

/-- Every counter but one that a record has alone belongs to some other record. -/
theorem count_elsewhere (h : Reclaimed ⟨⟨heap, recs⟩, started⟩)
    (hsound : Sound ⟨⟨heap, recs⟩, started⟩) (hid : recs.lookup id = some tmps) {a : ℕ}
    (ha : (heap.counts.cell a).isSome)
    (hshared : a = tmps.shareCount → 1 < holders ThreadTmps.shareCount recs tmps.shareCount) :
    ∃ x tmps₁, x ≠ id ∧ recs.lookup x = some tmps₁ ∧ tmps₁.shareCount = a := by
  obtain ⟨x, tmps₁, hx, hcount⟩ := h.counts a ha
  by_cases hne : x = id
  · rw [hne] at hx
    obtain rfl := Option.some.inj (hid.symm.trans hx)
    obtain ⟨y, tmps₂, hy, hlook, hrefs⟩ := other_record hsound hid (hshared hcount.symm)
    exact ⟨y, tmps₂, hy, hlook, hrefs.shareCount.trans hcount⟩
  · exact ⟨x, tmps₁, hne, hx, hcount⟩

/-- Every mutex but one that a record has alone belongs to some other record. -/
theorem mutex_elsewhere (h : Reclaimed ⟨⟨heap, recs⟩, started⟩)
    (hsound : Sound ⟨⟨heap, recs⟩, started⟩) (hid : recs.lookup id = some tmps) {a : ℕ}
    (ha : (heap.mutexes.cell a).isSome)
    (hshared : a = tmps.fdMutex → 1 < holders ThreadTmps.shareCount recs tmps.shareCount) :
    ∃ x tmps₁, x ≠ id ∧ recs.lookup x = some tmps₁ ∧ tmps₁.fdMutex = a := by
  obtain ⟨x, tmps₁, hx, hmutex⟩ := h.mutexes a ha
  by_cases hne : x = id
  · rw [hne] at hx
    obtain rfl := Option.some.inj (hid.symm.trans hx)
    obtain ⟨y, tmps₂, hy, hlook, hrefs⟩ := other_record hsound hid (hshared hmutex.symm)
    exact ⟨y, tmps₂, hy, hlook, hrefs.fdMutex.trans hmutex⟩
  · exact ⟨x, tmps₁, hne, hx, hmutex⟩

/-- **A tracee calls `execve`,** and a table that it leaves has other tracees. -/
theorem execveReturn (h : Reclaimed ⟨⟨heap, recs⟩, started⟩)
    (hsound : Sound ⟨⟨heap, recs⟩, started⟩) (hid : recs.lookup id = some tmps) {w' : World}
    (hstep : Iotrace.execveReturn ⟨⟨heap, recs⟩, started⟩ id = .ok w') : w'.Reclaimed := by
  obtain ⟨t, -, ⟨-, hstep'⟩ | ⟨htwo, hstep'⟩⟩ := hsound.execveReturn_cases hid
  · obtain rfl := Except.ok.inj (hstep.symm.trans hstep')
    refine ⟨fun a ha => h.tables a ?_, h.counts, h.mutexes⟩
    exact (Arena.write_cell_isSome _ _ _ _).symm.trans ha
  · obtain rfl := Except.ok.inj (hstep.symm.trans hstep')
    refine ⟨fun a ha => ?_, fun a ha => ?_, fun a ha => ?_⟩
    · rw [Arena.write_cell_isSome] at ha
      by_cases hnext : a = heap.tables.next
      · exact ⟨id, by rw [tableOf_of_record (Finmap.lookup_insert _), hnext]⟩
      · rw [Arena.alloc_cell_ne _ _ hnext] at ha
        obtain ⟨q, hne, hq⟩ := table_elsewhere hsound hid (h.tables a ha) fun _ => htwo
        exact ⟨q, (tableOf_insert hne).trans hq⟩
    · rw [Arena.write_cell_isSome] at ha
      by_cases hnext : a = heap.counts.next
      · exact ⟨id, _, Finmap.lookup_insert _, hnext.symm⟩
      · have hold : a ≠ (heap.counts.write tmps.shareCount
            (holders ThreadTmps.shareCount recs tmps.shareCount - 1)).next := hnext
        rw [Arena.alloc_cell_ne _ _ hold, Arena.write_cell_isSome] at ha
        obtain ⟨x, tmps₁, hne, hx, hcount⟩ := h.count_elsewhere hsound hid ha fun _ => htwo
        exact ⟨x, tmps₁, (Finmap.lookup_insert_of_ne _ hne).trans hx, hcount⟩
    · by_cases hnext : a = heap.mutexes.next
      · exact ⟨id, _, Finmap.lookup_insert _, hnext.symm⟩
      · rw [Arena.alloc_cell_ne _ _ hnext] at ha
        obtain ⟨x, tmps₁, hne, hx, hmutex⟩ := h.mutex_elsewhere hsound hid ha fun _ => htwo
        exact ⟨x, tmps₁, (Finmap.lookup_insert_of_ne _ hne).trans hx, hmutex⟩

/-- **A tracer thread ends,** and frees what only its record refers to. -/
theorem tracerEnd (h : Reclaimed ⟨⟨heap, recs⟩, started⟩)
    (hsound : Sound ⟨⟨heap, recs⟩, started⟩) (hid : recs.lookup id = some tmps) {w' : World}
    (hstep : Iotrace.tracerEnd ⟨⟨heap, recs⟩, started⟩ id = .ok w') : w'.Reclaimed := by
  have htables : ∀ {heap' : Heap} {a : ℕ},
      (∃ q, q ≠ id ∧ tableOf ⟨⟨heap, recs⟩, started⟩ q = some a) →
        ∃ q, tableOf ⟨⟨heap', recs.erase id⟩, started⟩ q = some a := by
    rintro heap' a ⟨q, hne, hq⟩
    have htable : tableOf ⟨⟨heap', recs.erase id⟩, started⟩ q =
        tableOf ⟨⟨heap, recs⟩, started⟩ q :=
      tableOf_congr (Finmap.lookup_erase_ne hne) rfl
    exact ⟨q, htable.trans hq⟩
  have hfreed : ∀ {α : Type} (m : Arena α) {a b : ℕ}, ((m.free b).cell a).isSome →
      a ≠ b ∧ (m.cell a).isSome := by
    intro α m a b ha
    have hne : a ≠ b := by
      rintro rfl
      rw [Arena.free_cell_self] at ha
      cases ha
    exact ⟨hne, by rwa [Arena.free_cell_ne _ hne] at ha⟩
  rcases hsound.tracerEnd_cases hid with ⟨htwo, hstep'⟩ | ⟨-, hstep'⟩
  · obtain rfl := Except.ok.inj (hstep.symm.trans hstep')
    refine ⟨fun a ha => ?_, fun a ha => ?_, fun a ha => ?_⟩
    · exact htables (table_elsewhere hsound hid (h.tables a ha) fun _ => htwo)
    · rw [Arena.write_cell_isSome] at ha
      obtain ⟨x, tmps₁, hne, hx, hcount⟩ := h.count_elsewhere hsound hid ha fun _ => htwo
      exact ⟨x, tmps₁, (Finmap.lookup_erase_ne hne).trans hx, hcount⟩
    · obtain ⟨x, tmps₁, hne, hx, hmutex⟩ := h.mutex_elsewhere hsound hid ha fun _ => htwo
      exact ⟨x, tmps₁, (Finmap.lookup_erase_ne hne).trans hx, hmutex⟩
  · obtain rfl := Except.ok.inj (hstep.symm.trans hstep')
    refine ⟨fun a ha => ?_, fun a ha => ?_, fun a ha => ?_⟩
    · obtain ⟨hgone, ha⟩ := hfreed _ ha
      exact htables (table_elsewhere hsound hid (h.tables a ha) fun heq => absurd heq hgone)
    · obtain ⟨hgone, ha⟩ := hfreed _ ha
      rw [Arena.write_cell_isSome] at ha
      obtain ⟨x, tmps₁, hne, hx, hcount⟩ :=
        h.count_elsewhere hsound hid ha fun heq => absurd heq hgone
      exact ⟨x, tmps₁, (Finmap.lookup_erase_ne hne).trans hx, hcount⟩
    · obtain ⟨hgone, ha⟩ := hfreed _ ha
      obtain ⟨x, tmps₁, hne, hx, hmutex⟩ :=
        h.mutex_elsewhere hsound hid ha fun heq => absurd heq hgone
      exact ⟨x, tmps₁, (Finmap.lookup_erase_ne hne).trans hx, hmutex⟩

/-- **One step** leaves nothing behind. -/
theorem step {w w' : World} (h : w.Reclaimed) (hsound : w.Sound) {s : ThreadStep}
    (hscope : w.InScope s) (hstep : w.step s = .ok w') : w'.Reclaimed := by
  obtain ⟨⟨heap, recs⟩, started⟩ := w
  cases s with
  | threadsAdd child parent flags =>
      obtain ⟨⟨tmps, hid⟩, hchild, hnone⟩ := hscope
      exact h.threadsAdd hsound hid hchild hnone hstep
  | threadFunc child block =>
      obtain ⟨data, hdata⟩ := hscope
      exact h.threadFunc hsound hdata hstep
  | execveReturn tracee =>
      obtain ⟨tmps, hid⟩ := hscope
      exact h.execveReturn hsound hid hstep
  | tracerEnd tracee =>
      obtain ⟨tmps, hid⟩ := hscope
      exact h.tracerEnd hsound hid hstep

/-- The first tracee has everything that there is. -/
theorem mainTracer {tracee : CInt} {block : ThreadTmps} {w : World}
    (hmain : Iotrace.mainTracer tracee block = .ok w) : w.Reclaimed := by
  obtain rfl := Except.ok.inj hmain
  have hcell : ∀ {α : Type} {v : α} {a : ℕ}, ((Arena.empty.alloc v).cell a).isSome → a = 0 := by
    intro α v a ha
    by_contra hne
    rw [Arena.alloc_cell_ne _ _ hne] at ha
    cases ha
  refine ⟨fun a ha => ⟨tracee, ?_⟩, fun a ha => ?_, fun a ha => ?_⟩
  · rw [hcell ha, tableOf_of_record (Finmap.lookup_insert _)]
  · rw [Arena.write_cell_isSome] at ha
    exact ⟨tracee, _, Finmap.lookup_insert _, (hcell ha).symm⟩
  · exact ⟨tracee, _, Finmap.lookup_insert _, (hcell ha).symm⟩

end Reclaimed

/-- Nothing is alive. -/
def Freed (w : World) : Prop :=
  ∀ a, w.process.heap.tables.cell a = none ∧ w.process.heap.counts.cell a = none ∧
    w.process.heap.mutexes.cell a = none

/-- Without records and start data there is nothing that anything could belong to. -/
theorem Reclaimed.freed {w : World} (h : w.Reclaimed) (hrecs : w.process.threadTmpsTable = ∅)
    (hstarted : w.started = ∅) : w.Freed := by
  intro a
  refine ⟨?_, ?_, ?_⟩ <;> by_contra hsome
  · obtain ⟨id, hid⟩ := h.tables a (Option.isSome_iff_ne_none.mpr hsome)
    rw [tableOf, hrecs, hstarted, Finmap.lookup_empty, Finmap.lookup_empty] at hid
    cases hid
  · obtain ⟨id, tmps, hid, -⟩ := h.counts a (Option.isSome_iff_ne_none.mpr hsome)
    rw [hrecs, Finmap.lookup_empty] at hid
    cases hid
  · obtain ⟨id, tmps, hid, -⟩ := h.mutexes a (Option.isSome_iff_ne_none.mpr hsome)
    rw [hrecs, Finmap.lookup_empty] at hid
    cases hid

end World

/-- **Nothing leaks.**  Over every run of any number of tracer threads from the first one
on, in which a new child has a number without record and without start data and the
counted references outlast all hand-overs: no step uses or frees
anything that has been freed, in every state everything that is alive belongs to a
tracee, and when all tracees are gone nothing is alive. -/
theorem nothing_leaks {tracee : CInt} {block : ThreadTmps} {w : World}
    (hmain : mainTracer tracee block = .ok w) {l : List ThreadStep}
    (hscope : Along World.step World.InScope w l) (hkept : Along World.step World.Outlasts w l) :
    (∃ w', l.foldlM World.step w = .ok w') ∧ Always World.step World.Reclaimed w l ∧
      Always World.step (fun w => w.process.threadTmpsTable = ∅ → w.started = ∅ → w.Freed) w l := by
  have hstart : w.Sound ∧ w.Reclaimed :=
    ⟨(mainTracer_handOverCounted hmain).1, World.Reclaimed.mainTracer hmain⟩
  have hkeep : ∀ (w : World) s w', w.Sound ∧ w.Reclaimed → w.InScope s ∧ w.Outlasts s →
      w.step s = .ok w' → w'.Sound ∧ w'.Reclaimed := by
    rintro w s w' ⟨hsound, h⟩ ⟨hin, hout⟩ hstep
    obtain ⟨w'', hstep', hsound'⟩ := hsound.step hin hout
    obtain rfl := Except.ok.inj (hstep.symm.trans hstep')
    exact ⟨hsound', h.step hsound hin hstep⟩
  have hboth := hscope.and hkept
  have halways : Always World.step (fun w => w.Sound ∧ w.Reclaimed) w l :=
    hboth.always hkeep hstart
  refine ⟨?_, halways.mono fun w h => h.2, halways.mono fun w h => h.2.freed⟩
  refine Along.run_ok (fun _ _ h => h) (Along.along (Q := fun w s => ∃ w', w.step s = .ok w')
    hkeep (fun w s h hin => ?_) hboth hstart)
  exact (h.1.step hin.1 hin.2).imp fun _ hstep => hstep.1

/-- A child shares the table of its parent and leaves it at an `execve`, its parent exits
first, and nothing is left. -/
theorem nothing_leaks_execve : ∃ w w', mainTracer 100 someBlock = .ok w ∧
    (createThenExecve CLONE_FILES ++ [ThreadStep.tracerEnd 101]).foldlM World.step w = .ok w' ∧
      w'.Freed := by
  obtain ⟨w, hmain⟩ : ∃ w, mainTracer 100 someBlock = .ok w := ⟨_, rfl⟩
  have hscope : Along World.step World.InScope w
        (createThenExecve CLONE_FILES ++ [ThreadStep.tracerEnd 101]) ∧
      Along World.step World.Outlasts w
        (createThenExecve CLONE_FILES ++ [ThreadStep.tracerEnd 101]) := by
    obtain rfl := Except.ok.inj hmain
    refine ⟨Along.cons ⟨⟨_, rfl⟩, rfl, rfl⟩ rfl (Along.cons ⟨_, rfl⟩ rfl (Along.cons ⟨_, rfl⟩ rfl
      (Along.cons ⟨_, rfl⟩ rfl ⟨⟨_, rfl⟩, fun _ _ => trivial⟩))), ?_⟩
    have hnone : ∀ (child : CInt) (data : StartData),
        ((Finmap.insert 101 (⟨0, some 0, some 0⟩ : StartData) ∅ :
          Finmap fun _ : CInt => StartData).erase 101).lookup child ≠ some data := by
      intro child data hdata
      rw [lookup_erase_eq, lookup_insert_eq, Finmap.lookup_empty] at hdata
      split_ifs at hdata
    exact Along.cons trivial rfl (Along.cons trivial rfl (Along.cons trivial rfl (Along.cons
      (fun _ _ _ child data hdata => absurd hdata (hnone child data)) rfl
        ⟨fun _ _ _ child data hdata => absurd hdata (hnone child data), fun _ _ => trivial⟩)))
  obtain ⟨⟨w', hrun⟩, -, hfreed⟩ := nothing_leaks hmain hscope.1 hscope.2
  refine ⟨w, w', hmain, hrun, hfreed.last hrun ?_ ?_⟩
  all_goals
    obtain rfl := Except.ok.inj hmain
    obtain rfl := Except.ok.inj hrun
    rfl

end Iotrace
