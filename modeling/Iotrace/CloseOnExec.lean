/-
# Close-on-exec flags

The flags of the tracer's entries against the `FD_CLOEXEC` flags of the kernel's
descriptors, over any run of a tracee with a table of its own, and what an
`execve` then leaves of both tables.

Three handlers enter the flag `false` whatever the call asks for: the one of
`dup3`, which is the one of `dup`; the one of `socketpair`; and the one of the
`TIOCGPTPEER` request.  A run in which none of these asks for the flag keeps the
flags in step, and the first that does ends it (`cloexec_mirrored`).
-/

import Iotrace.Refinement
import Iotrace.Execve

namespace Iotrace

open Kernel Runs

/-- After any successful `execve` the tracee's table has an entry for exactly the
descriptors that the kernel keeps open. -/
def SurvivesExecve (p : Tracer × Kernel.Table) : Prop :=
  ∀ c : Completed, c.Timed → sysno c.sc = .SYS_execve → c.rax = 0 →
    ∃ s' t', handleCompleted p.1 c = .ok s' ∧ s'.Holds t' ∧
      ∀ fd, (t'.lookup fd).isSome = (Kernel.execve p.2 fd).isSome

/-- The tracer has an entry for exactly the open descriptors, with the flag of
the descriptor, and an `execve` leaves as much of the one table as of the other. -/
def CloexecMirrored (p : Tracer × Kernel.Table) : Prop :=
  (∃ t, p.1.Holds t ∧ ∀ fd, (t.lookup fd).map FdTableEntry.cloexec =
    (p.2 fd).map Descriptor.cloexec) ∧ SurvivesExecve p

/-- **Flags in step survive an `execve` alike.** -/
theorem Refines.survivesExecve {p : Tracer × Kernel.Table}
    (h : Refines FdTableEntry.cloexec Descriptor.cloexec p) (hprivate : p.1.Private) :
    SurvivesExecve p := by
  obtain ⟨t, hs, hagree⟩ := h
  intro c hc hsc _
  obtain ⟨startTime, syscallTable, hstep, hs'⟩ :=
    handleCompleted_execve_of_private hs hprivate le_rfl hc hsc
  refine ⟨_, _, hstep, hs', fun fd => ?_⟩
  have hfd := hagree fd
  rw [lookup_fdTableRemoveCloexec, Kernel.execve]
  cases hentry : t.lookup fd with
  | none =>
      rw [hentry, Option.map_none, eq_comm, Option.map_eq_none_iff] at hfd
      rw [hfd]
      rfl
  | some entry =>
      rw [hentry, Option.map_some, eq_comm, Option.map_eq_some_iff] at hfd
      obtain ⟨d, hd, hflag⟩ := hfd
      rw [hd]
      simp only [Option.filter, hflag]
      split_ifs <;> rfl

/-- An entry and its descriptor have the same flag. -/
theorem Agrees.flag_eq {t : FdTable} {K : Kernel.Table}
    (h : Agrees FdTableEntry.cloexec Descriptor.cloexec t K) {fd : CInt} {entry : FdTableEntry}
    {d : Descriptor} (hentry : t.lookup fd = some entry) (hd : K fd = some d) :
    entry.cloexec = d.cloexec := by
  have hfd := h fd
  rw [hentry, hd] at hfd
  exact Option.some.inj hfd

/-- **The flags part where one is not seen:** a call in scope after which they
still agree is not one of those that ask for the flag in vain. -/
theorem Completed.flagSeen_of_agrees {c : Completed} {t t' : FdTable} {K : Kernel.Table}
    (h : Agrees FdTableEntry.cloexec Descriptor.cloexec t K) (hfits : t.Fits)
    (hscope : c.InScope K) (hpeek : c.ArrayPeeked) (ht' : c.tableEffect t = .ok t')
    (h' : Agrees FdTableEntry.cloexec Descriptor.cloexec t' (c.kernelEffect.apply K)) :
    c.FlagSeen Eq := by
  obtain ⟨-, -, hscope⟩ := hscope
  unfold ArrayPeeked at hpeek
  unfold FlagSeen
  unfold tableEffect at ht'
  unfold kernelEffect at h'
  cases hsc : sysno c.sc <;> simp only [hsc] at hscope hpeek ht' h' ⊢
  case SYS_dup3 =>
    obtain ⟨⟨hpos, -⟩, ⟨hold, hopen⟩, hne⟩ := hscope
    obtain ⟨entry, d, hentry, hd, -⟩ := h.entry hopen
    rw [if_pos ⟨hold, hne⟩, fdTableInsertDup_of_lookup hentry] at ht'
    rw [dupsOf, if_pos ⟨hpos, hne⟩, Effect.apply, hd] at h'
    obtain rfl := Except.ok.inj ht'
    exact h'.flag_eq ((lookup_fdTableInsert _ _ _ _ _).trans (if_pos rfl))
      (Function.update_self _ _ _)
  case SYS_socketpair =>
    intro hrax
    obtain ⟨fdA, fdB, hfdA, hfdB, -, hvalB⟩ := (hscope hrax).peeked (hpeek hrax)
    obtain rfl := Except.ok.inj ht'
    rw [enterPair, if_pos hrax, hvalB, opensPairOf, if_pos hrax, hfdA, hfdB] at h'
    exact h'.flag_eq ((lookup_fdTableInsert _ _ _ _ _).trans (if_pos rfl))
      (Function.update_self _ _ _)
  case SYS_ioctl =>
    obtain ⟨hcmd, ⟨hpos, -⟩, -, hopen⟩ := hscope
    obtain ⟨entry, d, hentry, hd, -⟩ := h.entry hopen
    rw [if_pos hcmd, fdTableInsertDup_slave_of_lookup hentry (hfits _ _ hentry)] at ht'
    rw [if_pos ⟨hpos, hcmd⟩, Effect.apply, hd] at h'
    obtain rfl := Except.ok.inj ht'
    exact h'.flag_eq ((lookup_fdTableInsert _ _ _ _ _).trans (if_pos rfl))
      (Function.update_self _ _ _)

/-- **One step ends the agreement of the flags** if an array of a pair cannot be
read or a flag is not seen. -/
theorem Refines.seen_of_mirrored {p p' : Tracer × Kernel.Table} {c : Completed}
    (h : Refines FdTableEntry.cloexec Descriptor.cloexec p) (hfits : p.1.Fits)
    (hneg : NonNegative p.2) (hscope : c.InScope p.2) (hstep : tracedStep p c = .ok p')
    (h' : CloexecMirrored p') : c.ArrayPeeked ∧ c.FlagSeen Eq := by
  obtain ⟨p'', hstep', -, -, -, -, hbreak⟩ := h.step View.flags hfits hscope
  obtain rfl := Except.ok.inj (hstep.symm.trans hstep')
  have hpeek := hbreak hneg h'.1
  refine ⟨hpeek, ?_⟩
  obtain ⟨t, hs, hagree⟩ := h
  obtain ⟨t', ht'⟩ := Completed.tableEffect_ok hagree (hfits t hs) hscope
  obtain ⟨s', hstep', hs', -, -⟩ := tracedStep_of_tableEffect hs hscope ht'
  obtain rfl := Except.ok.inj (hstep.symm.trans hstep')
  obtain ⟨t'', hs'', hagree'⟩ := h'.1
  obtain rfl := hs'.unique hs''
  exact Completed.flagSeen_of_agrees hagree (hfits t hs) hscope hpeek ht' hagree'

/-- **Close-on-exec bookkeeping mirrors the kernel exactly as long as every flag
is seen.**  Over every run in scope of a tracee with a table of its own, the
flags agree in every state, and an `execve` in any state leaves entries for
exactly the descriptors that stay open, if and only if no `dup3`, `socketpair` or
`TIOCGPTPEER` asks for the flag and every array of a pair can be read. -/
theorem cloexec_mirrored {s : Tracer} {t : FdTable} (hs : s.Holds t) (hfits : t.Fits)
    (hprivate : s.Private) (hneg : NonNegative (ofFdTable t)) {l : List Completed}
    (hscope : Along tracedStep (fun p c => c.InScope p.2) (s, ofFdTable t) l) :
    Always tracedStep CloexecMirrored (s, ofFdTable t) l ↔
      Along tracedStep (fun _ c => c.ArrayPeeked ∧ c.FlagSeen Eq) (s, ofFdTable t) l := by
  refine always_iff_along (I := fun p => Refines FdTableEntry.cloexec Descriptor.cloexec p ∧
    p.1.Fits ∧ p.1.Private ∧ NonNegative p.2) (fun p hp => ⟨hp.1, hp.1.survivesExecve hp.2.2.1⟩)
    ?_ hscope ⟨Refines.start hs fun _ => rfl, hs.fits hfits, hprivate, hneg⟩
  rintro p c ⟨href, hfit, hpriv, hneg⟩ hin
  obtain ⟨p', hstep, hfit', hpriv', hker, hkeep, -⟩ := href.step View.flags hfit hin
  refine ⟨p', hstep, fun hp => ⟨hkeep hp.1 hp.2, hfit', hpriv' hpriv, ?_⟩,
    href.seen_of_mirrored hfit hneg hin hstep⟩
  rw [hker]
  exact c.kernelEffect_nonNegative hneg hin

/-- `dup3` of the standard output to descriptor 5. -/
def dup3To5 (flags : CLong) : Completed := .ofRegs 292 1 5 flags 0 5 fun _ => none

theorem dup3To5_inScope (flags : CLong) : (dup3To5 flags).InScope (ofFdTable fdTableCreate) := by
  have hsucc : 0 ≤ (5 : CLong).toInt ∧ (5 : CLong).toInt < 2 ^ 31 := by decide
  have hopen : 0 ≤ (1 : CInt).toInt ∧ (ofFdTable fdTableCreate 1).isSome := by decide
  exact ⟨⟨rfl, rfl⟩, trivial, hsucc, hopen, show (1 : CInt) ≠ 5 by decide⟩

/-- `dup3` without flags, then a close-on-exec socket. -/
theorem cloexec_mirrored_dup3 :
    Always tracedStep CloexecMirrored (Tracer.ofTable fdTableCreate, ofFdTable fdTableCreate)
      [dup3To5 0, .ofRegs 41 1 0x80001 0 0 3 fun _ => none] := by
  refine (cloexec_mirrored (Tracer.ofTable_holds _) fdTableCreate_fits rfl
    NonNegative.fdTableCreate ?_).mpr ?_
  · exact ⟨dup3To5_inScope 0, fun _ _ => ⟨⟨⟨rfl, rfl⟩, trivial,
      show (3 : CLong).toInt < 2 ^ 31 by decide⟩, fun _ _ => trivial⟩⟩
  · exact ⟨⟨trivial, show false = hasBit 0 O_CLOEXEC by decide⟩,
      fun _ _ => ⟨⟨trivial, trivial⟩, fun _ _ => trivial⟩⟩

/-- **`dup3` with `O_CLOEXEC`** leaves an entry that an `execve` does not remove. -/
theorem cloexec_missed_dup3 :
    Along tracedStep (fun p c => c.InScope p.2)
      (Tracer.ofTable fdTableCreate, ofFdTable fdTableCreate) [dup3To5 0x80000] ∧
    ¬Always tracedStep CloexecMirrored (Tracer.ofTable fdTableCreate, ofFdTable fdTableCreate)
      [dup3To5 0x80000] := by
  have hin := dup3To5_inScope 0x80000
  refine ⟨⟨hin, fun _ _ => trivial⟩, fun h => ?_⟩
  have hs := Tracer.ofTable_holds fdTableCreate
  have href : Refines FdTableEntry.cloexec Descriptor.cloexec
      (Tracer.ofTable fdTableCreate, ofFdTable fdTableCreate) := Refines.start hs fun _ => rfl
  obtain ⟨p, hstep, -⟩ := href.step View.flags (hs.fits fdTableCreate_fits) hin
  have hseen := href.seen_of_mirrored (hs.fits fdTableCreate_fits) NonNegative.fdTableCreate hin
    hstep (h.2 p hstep)
  exact absurd hseen.2 (show ¬false = hasBit 0x80000 O_CLOEXEC by decide)

end Iotrace
