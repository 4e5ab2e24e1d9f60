/-
# The histogram of results

Every read and every write is entered in a histogram under the value that the
kernel returned.  The keys are `ssize_t`s, but the hash table sees their low 32 bits
only.  In the range that the kernel returns these tell the values apart, so that the
histogram is exact, and agrees with the total number of bytes, over any merges
(`histogram_exact`).

Only the rates and the total are guarded by the sign of the result, not the
histogram: a failed call is counted there, under a negative number of bytes.
`failures_unaffecting_iff` says that failures leave the byte statistics alone only
where there are none.
-/

import Iotrace.Merge

namespace Iotrace

/-! ### Recording results -/

theorem readWrite_foldl_blocks (stat : ReadWriteStat) (calls : List (CULongLong × CLong)) :
    (readWriteAcc.recordAll stat calls).blocks =
      blocksAcc.recordAll stat.blocks (calls.map Prod.snd) := by
  induction calls generalizing stat with
  | nil => rfl
  | cons e calls ih => exact ih (readWriteAcc.record stat e)

/-- An entry keeps the key that it was made with, and counts. -/
theorem blockCell_recordAll_some (key : CLong) (count : CULongLong) (results : List CLong) :
    blockCell.recordAll (some (key, count)) results =
      some (key, count + BitVec.ofNat 64 results.length) := by
  induction results generalizing count with
  | nil => exact congrArg (fun n => some (key, n)) (BitVec.add_zero count).symm
  | cons b results ih =>
      refine (ih (count + 1)).trans ?_
      rw [List.length_cons, Nat.add_comm results.length, BitVec.ofNat_add, ← BitVec.add_assoc]
      rfl

/-- **What an entry of the histogram holds:** under given low 32 bits, the first
result with these bits and the number of all results with them. -/
theorem blocks_lookup (results : List CLong) (low : CInt) :
    (blocksAcc.recordAll ∅ results).lookup low =
      match results.filter (fun b => toCInt b = low) with
      | [] => none
      | b :: rest => some (b, BitVec.ofNat 64 (rest.length + 1)) := by
  rw [blocksAcc_eq, Cell.lookup_table_recordAll, Finmap.lookup_empty]
  cases results.filter (fun b => toCInt b = low) with
  | nil => rfl
  | cons b rest =>
      have hcount : (1 : CULongLong) + BitVec.ofNat 64 rest.length =
          BitVec.ofNat 64 (rest.length + 1) := by
        rw [Nat.add_comm, BitVec.ofNat_add]
        rfl
      exact (blockCell_recordAll_some b 1 rest).trans (congrArg (fun n => some (b, n)) hcount)

/-- In the range of the kernel, the results with the low 32 bits of `b` are those
equal to `b`. -/
theorem filter_toCInt_eq {results : List CLong} (hrange : ∀ b ∈ results, ReadWriteResult b)
    {b : CLong} (hb : b ∈ results) :
    results.filter (fun b' => toCInt b' = toCInt b) = results.filter (· == b) := by
  refine List.filter_congr fun b' hb' => ?_
  by_cases h : b' = b
  · rw [h, decide_eq_true rfl, beq_self_eq_true]
  · have hlow : toCInt b' ≠ toCInt b := fun heq =>
      h (toCInt_inj (hrange b' hb') (hrange b hb) heq)
    rw [decide_eq_false hlow, beq_eq_false_iff_ne.mpr h]

/-- **The entries of the histogram**, for results in the range of the kernel. -/
theorem blocks_lookup_iff {results : List CLong} (hrange : ∀ b ∈ results, ReadWriteResult b)
    {low : CInt} {b : CLong} {count : CULongLong} :
    (blocksAcc.recordAll ∅ results).lookup low = some (b, count) ↔
      b ∈ results ∧ toCInt b = low ∧ count = BitVec.ofNat 64 (results.count b) := by
  have hown : ∀ b ∈ results, (blocksAcc.recordAll ∅ results).lookup (toCInt b) =
      some (b, BitVec.ofNat 64 (results.count b)) := by
    intro b hb
    have hcount : results.count b = (results.filter (· == b)).length :=
      List.countP_eq_length_filter
    rw [blocks_lookup, filter_toCInt_eq hrange hb, hcount]
    cases hfilter : results.filter (· == b) with
    | nil => exact absurd (beq_self_eq_true b) (List.filter_eq_nil_iff.mp hfilter b hb)
    | cons b' rest =>
        have hmem : b' ∈ results.filter (· == b) := by
          rw [hfilter]
          exact List.mem_cons_self
        obtain rfl : b' = b := eq_of_beq (List.mem_filter.mp hmem).2
        rfl
  constructor
  · intro h
    have hmem : b ∈ results.filter fun b' => toCInt b' = low := by
      rw [blocks_lookup] at h
      cases hfilter : results.filter fun b' => toCInt b' = low with
      | nil =>
          rw [hfilter] at h
          cases h
      | cons b' rest =>
          rw [hfilter] at h
          obtain rfl := (Prod.mk.inj (Option.some.inj h)).1
          exact List.mem_cons_self
    obtain ⟨hb, hlow⟩ := List.mem_filter.mp hmem
    obtain rfl : toCInt b = low := of_decide_eq_true hlow
    rw [hown b hb] at h
    exact ⟨hb, rfl, (Prod.mk.inj (Option.some.inj h)).2.symm⟩
  · rintro ⟨hb, rfl, rfl⟩
    exact hown b hb

/-! ### The histogram is exact -/

/-- What an entry stands for in bytes, if its key is positive. -/
def blockBytes (_ : CInt) (entry : CLong × CULongLong) : CULongLong :=
  if 0 < entry.1.toInt then entry.1 * entry.2 else 0

/-- The histogram counts every result, each under an entry of its own, and agrees
with the total. -/
structure ReadWriteStat.Histogram (stat : ReadWriteStat) (results : List CLong) : Prop where
  entries : ∀ low b count, stat.blocks.lookup low = some (b, count) ↔
    b ∈ results ∧ toCInt b = low ∧ count = BitVec.ofNat 64 (results.count b)
  unshared : ∀ b ∈ results, ∀ b' ∈ results, toCInt b = toCInt b' → b = b'
  totalB : stat.totalB = FiniteMap.sum blockBytes stat.blocks

theorem readWrite_totalB_append (stat : ReadWriteStat) (calls : List (CULongLong × CLong))
    (e : CULongLong × CLong) :
    (readWriteAcc.recordAll stat (calls ++ [e])).totalB =
      (readWriteAcc.recordAll stat calls).totalB + if 0 < e.2.toInt then e.2 else 0 := by
  rw [Accumulation.recordAll_append]
  change (if 0 < e.2.toInt then (readWriteAcc.recordAll stat calls).totalB + e.2
    else (readWriteAcc.recordAll stat calls).totalB) = _
  split_ifs
  · rfl
  · exact (BitVec.add_zero _).symm

/-- **The total agrees with the histogram**, step by step. -/
theorem readWrite_totalB (calls : List (CULongLong × CLong))
    (hrange : ∀ b ∈ calls.map Prod.snd, ReadWriteResult b) :
    (readWriteAcc.recordAll initReadWriteStat calls).totalB =
      FiniteMap.sum blockBytes (readWriteAcc.recordAll initReadWriteStat calls).blocks := by
  induction calls using List.reverseRecOn with
  | nil => rfl
  | append_singleton calls e ih =>
      rw [List.map_append] at hrange
      have hpast : ∀ b ∈ calls.map Prod.snd, ReadWriteResult b := fun b hb =>
        hrange b (List.mem_append_left _ hb)
      have he : ReadWriteResult e.2 := hrange e.2 (List.mem_append_right _ List.mem_cons_self)
      rw [readWrite_totalB_append, ih hpast, Accumulation.recordAll_append]
      change _ = FiniteMap.sum blockBytes
        (blocksAcc.record (readWriteAcc.recordAll initReadWriteStat calls).blocks e.2)
      rw [blocksAcc_eq]
      refine (FiniteMap.sum_modify (fun _ => ?_) fun v hv => ?_).symm
      · change (if 0 < e.2.toInt then e.2 * 1 else 0) = _
        rw [mul_one]
      · obtain ⟨key, count⟩ := v
        rw [readWrite_foldl_blocks] at hv
        obtain ⟨hkey, hlow, -⟩ := (blocks_lookup_iff hpast).mp hv
        obtain rfl : key = e.2 := toCInt_inj (hpast key hkey) he hlow
        change (if 0 < e.2.toInt then e.2 * (count + 1) else 0) =
          (if 0 < e.2.toInt then e.2 * count else 0) + _
        split_ifs
        · rw [mul_add, mul_one]
        · rfl

/-- The blocks map after a row of calls counts each of their results. -/
theorem readWrite_histogram (calls : List (CULongLong × CLong))
    (hrange : ∀ b ∈ calls.map Prod.snd, ReadWriteResult b) :
    (readWriteAcc.recordAll initReadWriteStat calls).Histogram (calls.map Prod.snd) where
  entries low b count := by
    rw [readWrite_foldl_blocks]
    exact blocks_lookup_iff hrange
  unshared b hb b' hb' h := toCInt_inj (hrange b hb) (hrange b' hb') h
  totalB := readWrite_totalB calls hrange

theorem reads_inRange {file : CString} {es : List FileEvent} (h : ∀ e ∈ es, e.InRange) :
    ∀ b ∈ (reads file es).map Prod.snd, ReadWriteResult b := by
  intro b hb
  obtain ⟨e, he, rfl⟩ := List.mem_map.mp hb
  exact h _ (mem_reads.mp he)

theorem writes_inRange {file : CString} {es : List FileEvent} (h : ∀ e ∈ es, e.InRange) :
    ∀ b ∈ (writes file es).map Prod.snd, ReadWriteResult b := by
  intro b hb
  obtain ⟨e, he, rfl⟩ := List.mem_map.mp hb
  exact h _ (mem_writes.mp he)

/-- **The histogram is exact**, although its keys are compared as 32-bit numbers.
For every file, and every way to record reads and writes with results in the range
of the kernel and to merge tables: the histogram has an entry for exactly the values
that were returned, none of which shares its entry, with their number, and the total
is the sum over its positive keys. -/
theorem histogram_exact (r : Recording FileEvent) (hrange : ∀ e ∈ r.events, e.InRange)
    (file : CString) :
    (fileStatOf (r.state fileTables) file).readStats.Histogram
        ((reads file r.events).map Prod.snd) ∧
      (fileStatOf (r.state fileTables) file).writeStats.Histogram
        ((writes file r.events).map Prod.snd) := by
  have hrec := fileStatOf_recording r file
  rw [hrec.readStats, hrec.writeStats]
  exact ⟨readWrite_histogram _ (reads_inRange hrange),
    readWrite_histogram _ (writes_inRange hrange)⟩

/-- Two tables with a full read, a failed one and an empty one, merged. -/
def threeReads : Recording FileEvent :=
  .merge (.record (.record .fresh (.incrRead (cstr "log") 5 0x7ffff000))
      (.incrRead (cstr "log") 5 (-4095)))
    (.record .fresh (.incrRead (cstr "log") 5 0))

theorem histogram_exact_three :
    (fileStatOf (threeReads.state fileTables) (cstr "log")).readStats.Histogram
        ((reads (cstr "log") threeReads.events).map Prod.snd) ∧
      (fileStatOf (threeReads.state fileTables) (cstr "log")).writeStats.Histogram
        ((writes (cstr "log") threeReads.events).map Prod.snd) := by
  refine histogram_exact threeReads (fun e he => ?_) (cstr "log")
  simp only [threeReads, Recording.events, List.nil_append, List.cons_append, List.mem_cons,
    List.not_mem_nil, or_false] at he
  rcases he with rfl | rfl | rfl
  · exact ⟨by decide, by decide⟩
  · exact ⟨by decide, by decide⟩
  · exact ⟨by decide, by decide⟩

/-! ### Failed calls -/

/-- A read or a write that failed: the kernel returned a negated error number. -/
def FileEvent.failed : FileEvent → Bool
  | incrRead _ _ bytes | incrWrite _ _ bytes => bytes.toInt < 0
  | _ => false

/-- Everything but the total time is the same. -/
structure ReadWriteStat.SameBytes (stat stat' : ReadWriteStat) : Prop where
  totalB : stat.totalB = stat'.totalB
  minBps : stat.minBps = stat'.minBps
  maxBps : stat.maxBps = stat'.maxBps
  blocks : stat.blocks = stat'.blocks

/-- The keys of the histogram are numbers of bytes. -/
def ReadWriteStat.KeysNonNegative (stat : ReadWriteStat) : Prop :=
  ∀ low b count, stat.blocks.lookup low = some (b, count) → 0 ≤ b.toInt

/-- The byte statistics are those of `stat'`, and the histograms have no negative key. -/
structure FileStat.BytesOf (stat stat' : FileStat) : Prop where
  readStats : stat.readStats.SameBytes stat'.readStats
  writeStats : stat.writeStats.SameBytes stat'.writeStats
  readKeys : stat.readStats.KeysNonNegative
  writeKeys : stat.writeStats.KeysNonNegative

/-- Failed calls do not enter the byte statistics: leaving them out changes nothing,
and no key is negative. -/
def FailuresUnaffecting (r : Recording FileEvent) : Prop :=
  ∀ file, (fileStatOf (r.state fileTables) file).BytesOf
    (fileStatOf ((r.filter fun e => !e.failed).state fileTables) file)

/-- Recording a result changes the histogram. -/
theorem blocks_record_ne (blocks : Blocks) (bytes : CLong) :
    blocksAcc.record blocks bytes ≠ blocks := by
  intro h
  have hlook := congrArg (Finmap.lookup (toCInt bytes)) h
  rw [blocksAcc_eq, Cell.lookup_table_record, if_pos rfl] at hlook
  cases hentry : blocks.lookup (toCInt bytes) with
  | none =>
      rw [hentry] at hlook
      cases hlook
  | some entry =>
      rw [hentry] at hlook
      have hcount : entry.2 + 1 = entry.2 := (Prod.mk.inj (Option.some.inj hlook)).2
      have hone : (1 : CULongLong) = 0 := add_eq_left.mp hcount
      exact absurd hone (by decide)

/-- The keys of a histogram are results that were recorded. -/
theorem keysNonNegative_of_results {calls : List (CULongLong × CLong)}
    (h : ∀ e ∈ calls, 0 ≤ e.2.toInt) :
    (readWriteAcc.recordAll initReadWriteStat calls).KeysNonNegative := by
  intro low b count hlook
  rw [readWrite_foldl_blocks] at hlook
  change (blocksAcc.recordAll ∅ (calls.map Prod.snd)).lookup low = some (b, count) at hlook
  rw [blocks_lookup] at hlook
  cases hfilter : (calls.map Prod.snd).filter fun b' => toCInt b' = low with
  | nil =>
      rw [hfilter] at hlook
      cases hlook
  | cons b' rest =>
      have hmem : b' ∈ (calls.map Prod.snd).filter fun b' => toCInt b' = low := by
        rw [hfilter]
        exact List.mem_cons_self
      rw [hfilter] at hlook
      obtain rfl := (Prod.mk.inj (Option.some.inj hlook)).1
      obtain ⟨e, he, rfl⟩ := List.mem_map.mp (List.mem_filter.mp hmem).1
      exact h e he

/-- Without failed calls there is nothing to leave out. -/
theorem failuresUnaffecting_of_none {r : Recording FileEvent}
    (h : ∀ e ∈ r.events, e.failed = false) : FailuresUnaffecting r := by
  intro file
  have hsame : (r.filter fun e => !e.failed) = r :=
    Recording.filter_eq_self fun e he => by rw [h e he]; rfl
  have hrec := fileStatOf_recording r file
  have hresult : ∀ {b : CLong}, decide (b.toInt < 0) = false → 0 ≤ b.toInt := fun hb =>
    Int.not_lt.mp (of_decide_eq_false hb)
  rw [hsame]
  refine ⟨⟨rfl, rfl, rfl, rfl⟩, ⟨rfl, rfl, rfl, rfl⟩, ?_, ?_⟩
  · rw [hrec.readStats]
    exact keysNonNegative_of_results fun e he => hresult (h _ (mem_reads.mp he))
  · rw [hrec.writeStats]
    exact keysNonNegative_of_results fun e he => hresult (h _ (mem_writes.mp he))

/-- The first failed call shows in the histogram of its file. -/
theorem not_failed_of_unaffecting {r : Recording FileEvent} {e : FileEvent}
    (hpast : ∀ e' ∈ r.events, e'.failed = false) (h : FailuresUnaffecting (.record r e)) :
    e.failed = false := by
  cases hfailed : e.failed with
  | false => rfl
  | true =>
      have hsame : (r.filter fun e => !e.failed) = r :=
        Recording.filter_eq_self fun e he => by rw [hpast e he]; rfl
      have hfile := h e.filename
      rw [Recording.filter, hfailed, Bool.not_true, if_neg Bool.false_ne_true, hsame,
        Recording.state, fileStatOf_record, if_pos rfl] at hfile
      cases e with
      | incrOpen filename timeNs => cases hfailed
      | incrClose filename timeNs => cases hfailed
      | incrRead filename timeNs bytes =>
          exact absurd hfile.readStats.blocks (blocks_record_ne _ bytes)
      | incrWrite filename timeNs bytes =>
          exact absurd hfile.writeStats.blocks (blocks_record_ne _ bytes)

/-- **When failed calls do not enter the byte statistics.**  In a recording of calls
with any results, on any files and with any merges, and in every part of it, leaving
out the failed reads and writes leaves the totals, the rates and the histograms as
they are, and all keys are numbers of bytes, if and only if no read or write fails. -/
theorem failures_unaffecting_iff (r : Recording FileEvent) :
    r.Throughout FailuresUnaffecting ↔ ∀ e ∈ r.events, e.failed = false :=
  Recording.throughout_iff (fun _ h => failuresUnaffecting_of_none h)
    (fun _ _ hpast h => not_failed_of_unaffecting hpast h) r

/-- A read that would have to wait, on a file that does not block: `-EAGAIN`. -/
def wouldBlock : Recording FileEvent := .record .fresh (.incrRead (cstr "log") 5 (-11))

/-- **A failed read** is counted under minus eleven bytes. -/
theorem wouldBlock_counted :
    (fileStatOf (wouldBlock.state fileTables) (cstr "log")).readStats.blocks.lookup (-11) =
        some (-11, 1) ∧
      ¬wouldBlock.Throughout FailuresUnaffecting := by
  have hreads : reads (cstr "log") wouldBlock.events = [(5, -11)] := by decide
  refine ⟨?_, fun h => ?_⟩
  · rw [(fileStatOf_recording wouldBlock _).readStats, hreads]
    decide
  · have hno := not_failed_of_unaffecting (fun e he => absurd he List.not_mem_nil) h.2
    revert hno
    decide

end Iotrace
