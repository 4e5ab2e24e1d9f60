/-
# What the functions do to the heap

`threads_add`, `thread_func`, `handle_execve_return` and `thread_tmps_remove` in a sound
world, each with the two worlds that it may lead to, in full.  Which one it is depends on
the flags of the child, on what its start data holds, or on whether the counter of the
record is one.

What they do to the records of the tracees is the same in any world.

`World.contents` is the table that the tracer has for a tracee, by way of its record or
of its start data; the lemmas about it say what each step does to the contents of all
tracees, those included that share a table with the one that steps.
-/

import Iotrace.HandOver

namespace Iotrace

open RefCount FiniteMap

/-! ### The records -/

section Records

variable {w w' : World} {child : CInt}

theorem threadsAdd_records {parent flags : CInt} (h : threadsAdd w child parent flags = .ok w') :
    w'.process.threadTmpsTable = w.process.threadTmpsTable := by
  unfold threadsAdd at h
  cases hid : threadTmpsLookup w.process parent with
  | none =>
      rw [hid] at h
      cases h
  | some tmps =>
      simp only [hid] at h
      split_ifs at h
      · obtain rfl := Except.ok.inj h
        rfl
      · obtain ⟨heap, -, hw'⟩ := bind_eq_ok.mp h
        obtain rfl := Except.ok.inj hw'
        rfl

theorem threadTmpsTableInsert_records {p p' : Process} {tmps : ThreadTmps}
    (h : threadTmpsTableInsert p child tmps = .ok p') :
    p'.threadTmpsTable = p.threadTmpsTable.insert child tmps := by
  unfold threadTmpsTableInsert at h
  cases hold : p.threadTmpsTable.lookup child with
  | none =>
      rw [hold] at h
      obtain rfl := Except.ok.inj h
      rfl
  | some old =>
      rw [hold] at h
      obtain ⟨heap, -, hp'⟩ := bind_eq_ok.mp h
      obtain rfl := Except.ok.inj hp'
      rfl

/-- A thread that has been started enters the record of its tracee. -/
theorem threadFunc_records {data : StartData} (hdata : w.started.lookup child = some data)
    {block : ThreadTmps} (h : threadFunc w child block = .ok w') :
    ∃ tmps, w'.process.threadTmpsTable = w.process.threadTmpsTable.insert child tmps := by
  simp only [threadFunc, hdata] at h
  obtain ⟨process, hprocess, hw'⟩ := bind_eq_ok.mp h
  obtain rfl := Except.ok.inj hw'
  unfold threadTmpsInsert at hprocess
  split at hprocess
  · obtain ⟨heap, -, hentered⟩ := bind_eq_ok.mp hprocess
    exact ⟨_, (threadTmpsTableInsert_records hentered :)⟩
  · obtain ⟨heap, -, hentered⟩ := bind_eq_ok.mp hprocess
    exact ⟨_, (threadTmpsTableInsert_records hentered :)⟩

/-- A tracee that ends leaves no record. -/
theorem tracerEnd_records {id : CInt} {tmps : ThreadTmps}
    (hid : w.process.threadTmpsTable.lookup id = some tmps) (h : tracerEnd w id = .ok w') :
    w'.process.threadTmpsTable = w.process.threadTmpsTable.erase id := by
  obtain ⟨r, hremove, hw'⟩ := bind_eq_ok.mp h
  obtain rfl := Except.ok.inj hw'
  simp only [threadTmpsRemove, hid] at hremove
  obtain ⟨heap, -, hr⟩ := bind_eq_ok.mp hremove
  obtain rfl := Except.ok.inj hr
  rfl

end Records

/-! ### What the functions lead to -/

namespace World.Sound

variable {heap : Heap} {recs : Finmap fun _ : CInt => ThreadTmps}
  {started : Finmap fun _ : CInt => StartData} {id child : CInt} {tmps : ThreadTmps}

/-- A table is handed over, or copied. -/
theorem threadsAdd_cases (h : Sound ⟨⟨heap, recs⟩, started⟩) (hid : recs.lookup id = some tmps)
    (child flags : CInt) :
    (hasBit flags CLONE_FILES = true ∧
      Iotrace.threadsAdd ⟨⟨heap, recs⟩, started⟩ child id flags = .ok ⟨⟨heap, recs⟩,
        started.insert child ⟨tmps.fdTable, some tmps.shareCount, some tmps.fdMutex⟩⟩) ∨
    (hasBit flags CLONE_FILES = false ∧ ∃ t, heap.tables.cell tmps.fdTable = some t ∧
      Iotrace.threadsAdd ⟨⟨heap, recs⟩, started⟩ child id flags =
        .ok ⟨⟨{ heap with tables := heap.tables.alloc t }, recs⟩,
          started.insert child ⟨heap.tables.next, none, none⟩⟩) := by
  obtain ⟨htable, hmutex⟩ := h.live id tmps hid
  obtain ⟨t, ht⟩ := Option.isSome_iff_exists.mp htable
  have hlookup : threadTmpsLookup ⟨heap, recs⟩ id = some tmps := hid
  simp only [Iotrace.threadsAdd, hlookup]
  cases hflag : hasBit flags CLONE_FILES with
  | true => exact Or.inl ⟨rfl, rfl⟩
  | false =>
      refine Or.inr ⟨rfl, t, ht, ?_⟩
      rw [if_neg Bool.false_ne_true, Heap.deepCopy_of_cell ht hmutex, ok_bind]

/-- A record joins those of the table that it was handed, or starts with a counter and a
mutex of its own. -/
theorem threadFunc_cases (h : Sound ⟨⟨heap, recs⟩, started⟩) {data : StartData}
    (hdata : started.lookup child = some data) (block : ThreadTmps) :
    (∃ id tmps, recs.lookup id = some tmps ∧
      data = ⟨tmps.fdTable, some tmps.shareCount, some tmps.fdMutex⟩ ∧
      Iotrace.threadFunc ⟨⟨heap, recs⟩, started⟩ child block =
        .ok ⟨⟨⟨heap.tables, heap.counts.write tmps.shareCount
            (holders ThreadTmps.shareCount recs tmps.shareCount + 1), heap.mutexes⟩,
          recs.insert child { block with
            fdTable := tmps.fdTable
            shareCount := tmps.shareCount
            fdMutex := tmps.fdMutex }⟩, started.erase child⟩) ∨
    (World.Owns ⟨⟨heap, recs⟩, started⟩ child data ∧
      Iotrace.threadFunc ⟨⟨heap, recs⟩, started⟩ child block =
        .ok ⟨⟨⟨heap.tables, (heap.counts.alloc 0).write heap.counts.next 1,
            heap.mutexes.alloc ()⟩,
          recs.insert child { block with
            fdTable := data.fdTable
            shareCount := heap.counts.next
            fdMutex := heap.mutexes.next }⟩, started.erase child⟩) := by
  have hnone : recs.lookup child = none := h.unregistered child data hdata
  rcases h.started child data hdata with ⟨id, tmps, hid, rfl⟩ | howns
  · exact Or.inl ⟨id, tmps, hid, rfl,
      threadFunc_of_handedOver hdata hnone (h.counted id tmps hid) block⟩
  · obtain ⟨a, count, mutex⟩ := data
    obtain ⟨rfl, rfl⟩ : count = none ∧ mutex = none := howns.unshared
    exact Or.inr ⟨howns, threadFunc_of_unshared hdata hnone block⟩

/-- A table of one's own is kept, and a shared one is left for a copy. -/
theorem execveReturn_cases (h : Sound ⟨⟨heap, recs⟩, started⟩)
    (hid : recs.lookup id = some tmps) :
    ∃ t, heap.tables.cell tmps.fdTable = some t ∧
      ((holders ThreadTmps.shareCount recs tmps.shareCount = 1 ∧
        Iotrace.execveReturn ⟨⟨heap, recs⟩, started⟩ id =
          .ok ⟨⟨heap.setTable tmps.fdTable (fdTableRemoveCloexec t), recs⟩, started⟩) ∨
      (1 < holders ThreadTmps.shareCount recs tmps.shareCount ∧
        Iotrace.execveReturn ⟨⟨heap, recs⟩, started⟩ id =
          .ok ⟨⟨⟨(heap.tables.alloc t).write heap.tables.next (fdTableRemoveCloexec t),
              ((heap.counts.write tmps.shareCount
                (holders ThreadTmps.shareCount recs tmps.shareCount - 1)).alloc 0).write
                  heap.counts.next 1,
              heap.mutexes.alloc ()⟩,
            recs.insert id { tmps with
              fdTable := heap.tables.next
              shareCount := heap.counts.next
              fdMutex := heap.mutexes.next }⟩, started⟩)) := by
  obtain ⟨htable, hmutex⟩ := h.live id tmps hid
  obtain ⟨t, ht⟩ := Option.isSome_iff_exists.mp htable
  have hcount := h.counted id tmps hid
  have hpos := holders_pos (r := ThreadTmps.shareCount) hid
  refine ⟨t, ht, ?_⟩
  rcases Nat.lt_or_ge 1 (holders ThreadTmps.shareCount recs tmps.shareCount) with htwo | hone
  · have hret := handleExecveReturn_of_shared ht hmutex hcount (by exact_mod_cast htwo)
    exact Or.inr ⟨htwo, execveReturn_of_ok hid hret⟩
  · have hret := handleExecveReturn_of_private ht hmutex hcount (by exact_mod_cast hone)
    refine Or.inl ⟨by omega, (execveReturn_of_ok hid hret).trans ?_⟩
    rw [insert_eq_self_iff.mpr hid]

/-- A share is given up, or what the record refers to is freed. -/
theorem tracerEnd_cases (h : Sound ⟨⟨heap, recs⟩, started⟩) (hid : recs.lookup id = some tmps) :
    (1 < holders ThreadTmps.shareCount recs tmps.shareCount ∧
      Iotrace.tracerEnd ⟨⟨heap, recs⟩, started⟩ id =
        .ok ⟨⟨⟨heap.tables, heap.counts.write tmps.shareCount
            (holders ThreadTmps.shareCount recs tmps.shareCount - 1), heap.mutexes⟩,
          recs.erase id⟩, started⟩) ∨
    (holders ThreadTmps.shareCount recs tmps.shareCount = 1 ∧
      Iotrace.tracerEnd ⟨⟨heap, recs⟩, started⟩ id =
        .ok ⟨⟨⟨heap.tables.free tmps.fdTable,
            (heap.counts.write tmps.shareCount 0).free tmps.shareCount,
            heap.mutexes.free tmps.fdMutex⟩, recs.erase id⟩, started⟩) := by
  obtain ⟨htable, hmutex⟩ := h.live id tmps hid
  obtain ⟨t, ht⟩ := Option.isSome_iff_exists.mp htable
  have hcount := h.counted id tmps hid
  have hpos := holders_pos (r := ThreadTmps.shareCount) hid
  rcases Nat.lt_or_ge 1 (holders ThreadTmps.shareCount recs tmps.shareCount) with htwo | hone
  · have hfree := freeSingleThreadTmps_of_shared hcount (by exact_mod_cast htwo)
    exact Or.inl ⟨htwo, tracerEnd_of_ok hid hfree⟩
  · have hone : holders ThreadTmps.shareCount recs tmps.shareCount = 1 := by omega
    have hcount : heap.counts.cell tmps.shareCount = some 1 := by
      rw [h.counted id tmps hid, hone]
      rfl
    exact Or.inr ⟨hone, tracerEnd_of_ok hid (freeSingleThreadTmps_of_last ht hmutex hcount)⟩

/-- A record changes and keeps its references. -/
theorem withRecord (h : Sound ⟨⟨heap, recs⟩, started⟩) (hid : recs.lookup id = some tmps)
    {tmps' : ThreadTmps} (hrefs : tmps.SameRefs tmps') :
    Sound ⟨⟨heap, recs.insert id tmps'⟩, started⟩ := by
  have hold : ∀ x tmps₁, (recs.insert id tmps').lookup x = some tmps₁ →
      ∃ tmps₀, recs.lookup x = some tmps₀ ∧ tmps₀.SameRefs tmps₁ := by
    intro x tmps₁ hx
    rw [lookup_insert_eq] at hx
    split_ifs at hx with hxid
    · obtain rfl := Option.some.inj hx
      exact ⟨tmps, hxid ▸ hid, hrefs⟩
    · exact ⟨tmps₁, hx, rfl, rfl, rfl⟩
  have hnew : ∀ x tmps₁, recs.lookup x = some tmps₁ →
      ∃ tmps₀, (recs.insert id tmps').lookup x = some tmps₀ ∧ tmps₁.SameRefs tmps₀ := by
    intro x tmps₁ hx
    rw [lookup_insert_eq]
    split_ifs with hxid
    · subst hxid
      obtain rfl := Option.some.inj (hid.symm.trans hx)
      exact ⟨tmps', rfl, hrefs⟩
    · exact ⟨tmps₁, hx, rfl, rfl, rfl⟩
  refine ⟨fun x tmps₁ hx => ?_, h.counted.replace hid hrefs.shareCount, fun x y tmps₁ tmps₂ hx hy =>
    ?_, fun x data hx => ?_, fun x data hx => ?_⟩
  · obtain ⟨tmps₀, hlook, h₁, -, h₃⟩ := hold x tmps₁ hx
    rw [h₁, h₃]
    exact h.live x tmps₀ hlook
  · obtain ⟨u, hu, hu₁, hu₂, hu₃⟩ := hold x tmps₁ hx
    obtain ⟨v, hv, hv₁, hv₂, hv₃⟩ := hold y tmps₂ hy
    refine (h.coherent x y u v hu hv).imp ?_ ?_
    · rintro ⟨h₁, h₂, h₃⟩
      exact ⟨by rw [hu₁, hv₁, h₁], by rw [hu₂, hv₂, h₂], by rw [hu₃, hv₃, h₃]⟩
    · rintro ⟨h₁, h₂, h₃⟩
      exact ⟨by rwa [hu₁, hv₁], by rwa [hu₂, hv₂], by rwa [hu₃, hv₃]⟩
  · refine (h.started x data hx).imp ?_ fun howns => ?_
    · rintro ⟨y, tmps₁, hy, rfl⟩
      obtain ⟨tmps₀, hlook, h₁, h₂, h₃⟩ := hnew y tmps₁ hy
      exact ⟨y, tmps₀, hlook, by rw [h₁, h₂, h₃]⟩
    · refine ⟨howns.unshared, howns.live, fun y tmps₁ hy => ?_, howns.started⟩
      obtain ⟨tmps₀, hlook, h₁, -, -⟩ := hold y tmps₁ hy
      rw [h₁]
      exact howns.records y tmps₀ hlook
  · have hne : x ≠ id := by
      rintro rfl
      have hnone : recs.lookup x = none := h.unregistered x data hx
      rw [hnone] at hid
      cases hid
    exact (Finmap.lookup_insert_of_ne _ hne).trans (h.unregistered x data hx)

end World.Sound

/-! ### The contents of the tables -/

namespace World

/-- The contents of the table that the tracer has for a tracee. -/
def contents (w : World) (tracee : CInt) : Option FdTable :=
  (w.tableOf tracee).bind w.process.heap.tables.cell

section Contents

variable {w w' : World} {id : CInt} {tmps : ThreadTmps}

/-- The contents of a tracee with a record. -/
theorem contents_of_record (h : w.process.threadTmpsTable.lookup id = some tmps) :
    w.contents id = w.process.heap.tables.cell tmps.fdTable := by
  rw [contents, tableOf_of_record h, Option.bind_some]

/-- A tracee keeps its contents if it keeps its table and the table keeps its contents. -/
theorem contents_congr (htable : w'.tableOf id = w.tableOf id)
    (hcell : ∀ a, w.tableOf id = some a →
      w'.process.heap.tables.cell a = w.process.heap.tables.cell a) :
    w'.contents id = w.contents id := by
  rw [contents, contents, htable]
  cases ha : w.tableOf id with
  | none => rfl
  | some a => exact hcell a ha

end Contents

namespace Sound

variable {heap : Heap} {recs : Finmap fun _ : CInt => ThreadTmps}
  {started : Finmap fun _ : CInt => StartData} {id child : CInt} {tmps : ThreadTmps} {w' : World}

/-- **A new child has the contents of its parent,** in the same table or in another. -/
theorem threadsAdd_contents (h : Sound ⟨⟨heap, recs⟩, started⟩) (hid : recs.lookup id = some tmps)
    (hchild : recs.lookup child = none) {flags : CInt}
    (hstep : Iotrace.threadsAdd ⟨⟨heap, recs⟩, started⟩ child id flags = .ok w') (q : CInt) :
    w'.contents q =
      contents ⟨⟨heap, recs⟩, started⟩ (if q = child then id else q) := by
  have hstarted : ∀ {heap' : Heap} {data : StartData}, q ≠ child →
      tableOf ⟨⟨heap', recs⟩, started.insert child data⟩ q =
        tableOf ⟨⟨heap, recs⟩, started⟩ q := fun hq =>
    tableOf_congr rfl (Finmap.lookup_insert_of_ne _ hq)
  have hnew : ∀ {heap' : Heap} {data : StartData},
      tableOf ⟨⟨heap', recs⟩, started.insert child data⟩ child = some data.fdTable := by
    intro heap' data
    rw [tableOf]
    simp only [hchild, Finmap.lookup_insert, Option.map_some]
  rcases h.threadsAdd_cases hid child flags with ⟨-, hstep'⟩ | ⟨-, t, ht, hstep'⟩
  · obtain rfl := Except.ok.inj (hstep.symm.trans hstep')
    split_ifs with hq
    · rw [hq, contents, hnew, contents_of_record hid]
      rfl
    · exact contents_congr (hstarted hq) fun _ _ => rfl
  · obtain rfl := Except.ok.inj (hstep.symm.trans hstep')
    split_ifs with hq
    · rw [hq, contents, hnew, contents_of_record hid]
      exact (Arena.alloc_cell_self _ _).trans ht.symm
    · exact contents_congr (hstarted hq) fun a ha =>
        Arena.alloc_cell_ne _ _ (Arena.ne_next_of_isSome (h.tableOf_live ha))

/-- **A new record has the table of its start data.** -/
theorem threadFunc_contents (h : Sound ⟨⟨heap, recs⟩, started⟩) {data : StartData}
    (hdata : started.lookup child = some data) {block : ThreadTmps}
    (hstep : Iotrace.threadFunc ⟨⟨heap, recs⟩, started⟩ child block = .ok w') (q : CInt) :
    w'.contents q = contents ⟨⟨heap, recs⟩, started⟩ q := by
  have htable : ∀ {heap' : Heap} {tmps' : ThreadTmps}, tmps'.fdTable = data.fdTable →
      tableOf ⟨⟨heap', recs.insert child tmps'⟩, started.erase child⟩ q =
        tableOf ⟨⟨heap, recs⟩, started⟩ q := by
    intro heap' tmps' hfd
    by_cases hq : q = child
    · rw [hq, tableOf_of_started h hdata, tableOf_of_record (Finmap.lookup_insert _), hfd]
    · exact tableOf_congr (Finmap.lookup_insert_of_ne _ hq) (Finmap.lookup_erase_ne hq)
  rcases h.threadFunc_cases hdata block with ⟨id, tmps, hid, rfl, hstep'⟩ | ⟨howns, hstep'⟩
  all_goals
    obtain rfl := Except.ok.inj (hstep.symm.trans hstep')
    exact contents_congr (htable rfl) fun _ _ => rfl

/-- **An `execve` drops the close-on-exec entries of its tracee,** and of nobody else: a
table that others have too is left to them. -/
theorem execveReturn_contents (h : Sound ⟨⟨heap, recs⟩, started⟩)
    (hid : recs.lookup id = some tmps)
    (hstep : Iotrace.execveReturn ⟨⟨heap, recs⟩, started⟩ id = .ok w') {q : CInt}
    (halone : holders ThreadTmps.shareCount recs tmps.shareCount = 1 → q ≠ id →
      tableOf ⟨⟨heap, recs⟩, started⟩ q ≠ some tmps.fdTable) :
    w'.contents q = if q = id then (contents ⟨⟨heap, recs⟩, started⟩ id).map fdTableRemoveCloexec
      else contents ⟨⟨heap, recs⟩, started⟩ q := by
  obtain ⟨t, ht, hcases⟩ := h.execveReturn_cases hid
  have hcontents : contents ⟨⟨heap, recs⟩, started⟩ id = some t := (contents_of_record hid).trans ht
  rw [hcontents]
  rcases hcases with ⟨hone, hstep'⟩ | ⟨-, hstep'⟩
  · obtain rfl := Except.ok.inj (hstep.symm.trans hstep')
    split_ifs with hq
    · rw [hq, contents_of_record hid]
      exact Arena.write_cell_self ht
    · refine contents_congr rfl fun a ha => Arena.write_cell_ne _ _ ?_
      rintro rfl
      exact halone hone hq ha
  · obtain rfl := Except.ok.inj (hstep.symm.trans hstep')
    split_ifs with hq
    · rw [hq, contents_of_record (Finmap.lookup_insert _)]
      exact Arena.write_cell_self (Arena.alloc_cell_self _ _)
    · have htable : ∀ {heap' : Heap} {tmps' : ThreadTmps},
          tableOf ⟨⟨heap', recs.insert id tmps'⟩, started⟩ q =
            tableOf ⟨⟨heap, recs⟩, started⟩ q :=
        tableOf_congr (Finmap.lookup_insert_of_ne _ hq) rfl
      refine contents_congr htable fun a ha => ?_
      have hne := Arena.ne_next_of_isSome (h.tableOf_live ha)
      exact (Arena.write_cell_ne _ _ hne).trans (Arena.alloc_cell_ne _ _ hne)

/-- **The end of a tracer thread** leaves the contents of the others. -/
theorem tracerEnd_contents (h : Sound ⟨⟨heap, recs⟩, started⟩)
    (hid : recs.lookup id = some tmps)
    (hstep : Iotrace.tracerEnd ⟨⟨heap, recs⟩, started⟩ id = .ok w') {q : CInt} (hq : q ≠ id)
    (halone : holders ThreadTmps.shareCount recs tmps.shareCount = 1 →
      tableOf ⟨⟨heap, recs⟩, started⟩ q ≠ some tmps.fdTable) :
    w'.contents q = contents ⟨⟨heap, recs⟩, started⟩ q := by
  have htable : ∀ {heap' : Heap}, tableOf ⟨⟨heap', recs.erase id⟩, started⟩ q =
      tableOf ⟨⟨heap, recs⟩, started⟩ q :=
    tableOf_congr (Finmap.lookup_erase_ne hq) rfl
  rcases h.tracerEnd_cases hid with ⟨-, hstep'⟩ | ⟨hone, hstep'⟩
  · obtain rfl := Except.ok.inj (hstep.symm.trans hstep')
    exact contents_congr htable fun _ _ => rfl
  · obtain rfl := Except.ok.inj (hstep.symm.trans hstep')
    refine contents_congr htable fun a ha => Arena.free_cell_ne _ ?_
    rintro rfl
    exact halone hone ha

/-- **A record changes and keeps its references, and its table changes:** that is seen by
all tracees that have the table. -/
theorem setTable_contents {tmps' : ThreadTmps} (hid : recs.lookup id = some tmps)
    (hrefs : tmps.SameRefs tmps') {t : FdTable} (ht : heap.tables.cell tmps.fdTable = some t)
    (t' : FdTable) (q : CInt) :
    contents ⟨⟨heap.setTable tmps.fdTable t', recs.insert id tmps'⟩, started⟩ q =
      if tableOf ⟨⟨heap, recs⟩, started⟩ q = some tmps.fdTable then some t'
      else contents ⟨⟨heap, recs⟩, started⟩ q := by
  have htable : tableOf ⟨⟨heap.setTable tmps.fdTable t', recs.insert id tmps'⟩, started⟩ q =
      tableOf ⟨⟨heap, recs⟩, started⟩ q := by
    by_cases hq : q = id
    · rw [hq, tableOf_of_record (Finmap.lookup_insert _), hrefs.fdTable]
      exact (tableOf_of_record hid).symm
    · exact tableOf_congr (Finmap.lookup_insert_of_ne _ hq) rfl
  split_ifs with hq
  · rw [contents, htable, hq, Option.bind_some]
    exact Arena.write_cell_self ht
  · refine contents_congr htable fun a ha => Arena.write_cell_ne _ _ ?_
    rintro rfl
    exact hq ha

end Sound

end World

end Iotrace
