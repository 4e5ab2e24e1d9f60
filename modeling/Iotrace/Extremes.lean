/-
# Minima and maxima

The statistics of a file keep the shortest and the longest time of its opens and
closes and the lowest and the highest rate of its reads and writes, in one table or
over any merges of tables (`Recording`).  They are running extremes in the sense of
`Iotrace.Library.RunningExtremes`, started from `MIN_NS_INITIAL` and
`MIN_BPS_INITIAL`, and these are numbers that a time or a rate can exceed.

`extremes_iff` says when the extremes are the true ones: some time of every kind of
event is at most 9999999999999 ns, some rate is at most 9999999999999 bytes a
second, and no call that transferred something took no time at all.  An `accept`,
which is counted as an open, may well block for three hours (`accept_blocks`).
-/

import Iotrace.Merge
import Iotrace.Library.RunningExtremes
import Mathlib.Algebra.Order.Field.Basic
import Mathlib.Algebra.Order.Ring.Rat

namespace Iotrace

open RunningExtremes

/-! ### What is to be kept -/

/-- The number of events, their shortest and their longest time. -/
structure OpenCloseStat.Exact (stat : OpenCloseStat) (times : List CULongLong) : Prop where
  count : stat.count = BitVec.ofNat 64 times.length
  minNs : IsLeast {n | n ∈ times.map BitVec.toNat} stat.minNs.toNat
  maxNs : IsGreatest {n | n ∈ times.map BitVec.toNat} stat.maxNs.toNat

/-- The rates of the calls that transferred something in some time. -/
def rates (calls : List (CULongLong × CLong)) : List Rate :=
  calls.filterMap fun e =>
    if 0 < e.2.toInt ∧ e.1 ≠ 0 then some (bytesPerSecond e.2 e.1) else none

/-- The rates that `file_stat_incr_rw` computes, those with a divisor of zero
included, which are infinite. -/
def computedRates (calls : List (CULongLong × CLong)) : List Rate :=
  calls.filterMap fun e => if 0 < e.2.toInt then some (bytesPerSecond e.2 e.1) else none

/-- The lowest and the highest rate, of which there may be none, and no rate with a divisor
of zero. -/
structure ReadWriteStat.Exact (stat : ReadWriteStat) (calls : List (CULongLong × CLong)) :
    Prop where
  minBps : rates calls ≠ [] → IsLeast {r | r ∈ rates calls} stat.minBps
  maxBps : rates calls ≠ [] → IsGreatest {r | r ∈ rates calls} stat.maxBps
  finite : stat.maxBps ≠ ⊤
  divisors : ⊤ ∉ computedRates calls

/-- The statistics of a file have the true extremes of its events. -/
structure FileStat.Exact (stat : FileStat) (file : CString) (es : List FileEvent) : Prop where
  openStats : opens file es ≠ [] → stat.openStats.Exact (opens file es)
  closeStats : closes file es ≠ [] → stat.closeStats.Exact (closes file es)
  readStats : stat.readStats.Exact (reads file es)
  writeStats : stat.writeStats.Exact (writes file es)

/-! ### When it is kept -/

/-- Some time does not exceed the sentinel, if there are any. -/
def TimesBounded (times : List CULongLong) : Prop :=
  times ≠ [] → ∃ timeNs ∈ times, timeNs ≤ MIN_NS_INITIAL

/-- No call that transferred something took no time. -/
def TimesNonzero (calls : List (CULongLong × CLong)) : Prop :=
  ∀ e ∈ calls, 0 < e.2.toInt → e.1 ≠ 0

/-- Some rate does not exceed the sentinel, if there are any, and every call that
transferred something took some time. -/
def RatesBounded (calls : List (CULongLong × CLong)) : Prop :=
  TimesNonzero calls ∧ (rates calls ≠ [] → ∃ r ∈ rates calls, r ≤ MIN_BPS_INITIAL)

/-- The events of a file stay within the sentinels. -/
structure Bounded (file : CString) (es : List FileEvent) : Prop where
  opens : TimesBounded (opens file es)
  closes : TimesBounded (closes file es)
  reads : RatesBounded (reads file es)
  writes : RatesBounded (writes file es)

/-! ### Opens and closes -/

theorem openClose_count (stat : OpenCloseStat) (times : List CULongLong) :
    (openCloseAcc.recordAll stat times).count =
      stat.count + BitVec.ofNat 64 times.length := by
  induction times generalizing stat with
  | nil => exact (BitVec.add_zero _).symm
  | cons t times ih =>
      refine (ih (openCloseAcc.record stat t)).trans ?_
      rw [List.length_cons, Nat.add_comm, BitVec.ofNat_add, ← BitVec.add_assoc]
      rfl

/-- `min_ns` is a running minimum. -/
theorem openClose_minNs (stat : OpenCloseStat) (times : List CULongLong) :
    (openCloseAcc.recordAll stat times).minNs.toNat =
      (times.map BitVec.toNat).foldl min stat.minNs.toNat := by
  induction times generalizing stat with
  | nil => rfl
  | cons t times ih =>
      refine (ih (openCloseAcc.record stat t)).trans ?_
      rw [List.map_cons, List.foldl_cons, ← toNat_ite_lt]
      rfl

/-- `max_ns` is a running maximum. -/
theorem openClose_maxNs (stat : OpenCloseStat) (times : List CULongLong) :
    (openCloseAcc.recordAll stat times).maxNs.toNat =
      (times.map BitVec.toNat).foldl max stat.maxNs.toNat := by
  induction times generalizing stat with
  | nil => rfl
  | cons t times ih =>
      refine (ih (openCloseAcc.record stat t)).trans ?_
      rw [List.map_cons, List.foldl_cons, ← toNat_ite_gt]
      rfl

/-- **Opens and closes have their true extremes** exactly if a time is within the
sentinel. -/
theorem openClose_exact_iff {times : List CULongLong} (h : times ≠ []) :
    (openCloseAcc.recordAll initOpenCloseStat times).Exact times ↔
      ∃ timeNs ∈ times, timeNs ≤ MIN_NS_INITIAL := by
  have hmin : IsLeast {n | n ∈ times.map BitVec.toNat}
      (openCloseAcc.recordAll initOpenCloseStat times).minNs.toNat ↔
        ∃ timeNs ∈ times, timeNs ≤ MIN_NS_INITIAL := by
    rw [openClose_minNs, isLeast_foldl_min_iff]
    constructor
    · rintro ⟨n, hn, hle⟩
      obtain ⟨t, ht, rfl⟩ := List.mem_map.mp hn
      exact ⟨t, ht, BitVec.le_def.mpr hle⟩
    · rintro ⟨t, ht, hle⟩
      exact ⟨_, List.mem_map_of_mem ht, BitVec.le_def.mp hle⟩
  constructor
  · intro hexact
    exact hmin.mp hexact.minNs
  · intro hbound
    refine ⟨?_, hmin.mpr hbound, ?_⟩
    · rw [openClose_count]
      exact BitVec.zero_add _
    · rw [openClose_maxNs, isGreatest_foldl_max_iff]
      obtain ⟨t, ht⟩ := List.exists_mem_of_ne_nil times h
      exact ⟨_, List.mem_map_of_mem ht, Nat.zero_le _⟩

/-! ### Reads and writes -/

theorem computedRates_cons (e : CULongLong × CLong) (calls : List (CULongLong × CLong)) :
    computedRates (e :: calls) =
      if 0 < e.2.toInt then bytesPerSecond e.2 e.1 :: computedRates calls
      else computedRates calls := by
  rw [computedRates, List.filterMap_cons]
  split_ifs <;> rfl

/-- Without a divisor of zero, all computed rates are true ones. -/
theorem computedRates_eq {calls : List (CULongLong × CLong)} (h : TimesNonzero calls) :
    computedRates calls = rates calls := by
  refine List.filterMap_congr fun e he => ?_
  by_cases hb : 0 < e.2.toInt
  · rw [if_pos hb, if_pos ⟨hb, h e he hb⟩]
  · rw [if_neg hb, if_neg fun hand => hb hand.1]

/-- **A computed rate is infinite** exactly if a call that transferred something took no
time. -/
theorem top_mem_computedRates_iff {calls : List (CULongLong × CLong)} :
    ⊤ ∈ computedRates calls ↔ ¬TimesNonzero calls := by
  simp only [TimesNonzero, not_forall, ne_eq, not_not, exists_prop, computedRates,
    List.mem_filterMap]
  refine exists_congr fun e => and_congr_right fun _ => ?_
  by_cases hb : 0 < e.2.toInt
  · rw [if_pos hb, Option.some.injEq, bytesPerSecond]
    split_ifs with htime
    · exact iff_of_true rfl ⟨hb, htime⟩
    · exact iff_of_false (WithTop.coe_ne_top) fun h => htime h.2
  · rw [if_neg hb]
    exact iff_of_false nofun fun h => hb h.1

/-- A maximum is infinite only if one of its terms is. -/
theorem foldl_max_ne_top {rs : List Rate} (h : ⊤ ∉ rs) {r : Rate} (hr : r ≠ ⊤) :
    rs.foldl max r ≠ ⊤ := by
  induction rs generalizing r with
  | nil => exact hr
  | cons q rs ih =>
      rw [List.mem_cons, not_or] at h
      refine ih h.2 ?_
      rcases max_choice r q with heq | heq <;> rw [heq]
      · exact hr
      · exact Ne.symm h.1

/-- `min_bps` is the running minimum of the rates that are computed. -/
theorem readWrite_foldl_minBps (stat : ReadWriteStat) (calls : List (CULongLong × CLong)) :
    (readWriteAcc.recordAll stat calls).minBps =
      (computedRates calls).foldl min stat.minBps := by
  induction calls generalizing stat with
  | nil => rfl
  | cons e calls ih =>
      refine (ih (readWriteAcc.record stat e)).trans ?_
      rw [readWrite_minBps, computedRates_cons]
      split_ifs <;> rfl

/-- `max_bps` is the running maximum of the rates that are computed. -/
theorem readWrite_foldl_maxBps (stat : ReadWriteStat) (calls : List (CULongLong × CLong)) :
    (readWriteAcc.recordAll stat calls).maxBps =
      (computedRates calls).foldl max stat.maxBps := by
  induction calls generalizing stat with
  | nil => rfl
  | cons e calls ih =>
      refine (ih (readWriteAcc.record stat e)).trans ?_
      rw [readWrite_maxBps, computedRates_cons]
      split_ifs <;> rfl

/-- A rate that is computed is not negative. -/
theorem computedRates_nonneg {calls : List (CULongLong × CLong)} {r : Rate}
    (h : r ∈ computedRates calls) : ((0 : ℚ) : Rate) ≤ r := by
  obtain ⟨e, -, he⟩ := List.mem_filterMap.mp h
  split_ifs at he with hb
  obtain rfl := Option.some.inj he
  rw [bytesPerSecond]
  split_ifs
  · exact le_top
  · have hbytes : (0 : ℚ) ≤ e.2.toInt := Int.cast_nonneg hb.le
    exact WithTop.coe_le_coe.mpr
      (div_nonneg (mul_nonneg hbytes (by norm_num)) (Nat.cast_nonneg _))

/-- **Reads and writes have their true extremes** exactly if a rate is within the
sentinel and none has a divisor of zero. -/
theorem readWrite_exact_iff (calls : List (CULongLong × CLong)) :
    (readWriteAcc.recordAll initReadWriteStat calls).Exact calls ↔ RatesBounded calls := by
  constructor
  · intro h
    have hdiv : TimesNonzero calls := by
      by_contra hzero
      exact h.divisors (top_mem_computedRates_iff.mpr hzero)
    refine ⟨hdiv, fun hne => ?_⟩
    have hmin := h.minBps hne
    rw [readWrite_foldl_minBps, computedRates_eq hdiv] at hmin
    exact isLeast_foldl_min_iff.mp hmin
  · rintro ⟨hdiv, hbound⟩
    have hrates := computedRates_eq hdiv
    have htop : ⊤ ∉ computedRates calls := fun h => top_mem_computedRates_iff.mp h hdiv
    refine ⟨fun hne => ?_, fun hne => ?_, ?_, htop⟩
    · rw [readWrite_foldl_minBps, hrates]
      exact isLeast_foldl_min_iff.mpr (hbound hne)
    · rw [readWrite_foldl_maxBps, hrates]
      obtain ⟨r, hr⟩ := List.exists_mem_of_ne_nil _ hne
      have hcomputed : r ∈ computedRates calls := by rwa [hrates]
      exact isGreatest_foldl_max_iff.mpr ⟨r, hr, computedRates_nonneg hcomputed⟩
    · rw [readWrite_foldl_maxBps]
      exact foldl_max_ne_top htop nofun

/-! ### All statistics of a file -/

/-- **When the extremes are the true ones.**  For every way to record events in
tables and to merge tables, and for every file: count, minima and maxima are those
of the file's events, and no rate that is computed is infinite, if and only if the
events stay within the sentinels and no call that transferred something took no
time. -/
theorem extremes_iff (r : Recording FileEvent) (file : CString) :
    (fileStatOf (r.state fileTables) file).Exact file r.events ↔ Bounded file r.events := by
  have hrec := fileStatOf_recording r file
  have hopenClose : ∀ times, (times ≠ [] →
      (openCloseAcc.recordAll initOpenCloseStat times).Exact times) ↔ TimesBounded times :=
    fun times => forall_congr' fun hne => openClose_exact_iff hne
  constructor
  · rintro ⟨hopen, hclose, hread, hwrite⟩
    rw [hrec.openStats] at hopen
    rw [hrec.closeStats] at hclose
    rw [hrec.readStats] at hread
    rw [hrec.writeStats] at hwrite
    exact ⟨(hopenClose _).mp hopen, (hopenClose _).mp hclose, (readWrite_exact_iff _).mp hread,
      (readWrite_exact_iff _).mp hwrite⟩
  · rintro ⟨hopen, hclose, hread, hwrite⟩
    refine ⟨?_, ?_, ?_, ?_⟩
    · rw [hrec.openStats]
      exact (hopenClose _).mpr hopen
    · rw [hrec.closeStats]
      exact (hopenClose _).mpr hclose
    · rw [hrec.readStats]
      exact (readWrite_exact_iff _).mpr hread
    · rw [hrec.writeStats]
      exact (readWrite_exact_iff _).mpr hwrite

/-- An `accept` that blocks for 10000 seconds. -/
def acceptBlocks : Recording FileEvent :=
  .record .fresh (.incrOpen (cstr "accept") 10000000000000)

/-- **An `accept` that blocks for long** is reported with the sentinel as its
shortest time. -/
theorem accept_blocks :
    (fileStatOf (acceptBlocks.state fileTables) (cstr "accept")).openStats.minNs =
        9999999999999 ∧
      ¬(fileStatOf (acceptBlocks.state fileTables) (cstr "accept")).Exact (cstr "accept")
        acceptBlocks.events := by
  have hopens : opens (cstr "accept") acceptBlocks.events = [10000000000000] := by decide
  refine ⟨?_, fun h => ?_⟩
  · rw [(fileStatOf_recording acceptBlocks _).openStats, hopens]
    decide
  · have hmin := (h.openStats (by rw [hopens]; decide)).minNs.1
    rw [(fileStatOf_recording acceptBlocks _).openStats, hopens] at hmin
    revert hmin
    decide

end Iotrace
