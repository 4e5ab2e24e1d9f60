/-
# The lengths of file names

`fd_table_insert_dup` copies the name of a pseudoterminal into a buffer of
`FILENAME_BUFF_SIZE` bytes without asking for its length.  The copy fits because every
name in every table has at most 255 bytes (`names_fit`): those that `read_string` reads
are cut to that, the labels are short, and the name that is built in the buffer for a
peer has one byte less at most, so that peers of peers are no exception.

`slaveBuffer` follows the source on the buffer itself.  The suffix is appended where
the result has at most 254 bytes, and otherwise it replaces the end of the name.
-/

import Iotrace.HandlerRuns
import Iotrace.ReadString
import Iotrace.Library.Outcome

namespace Iotrace

open Runs Outcome FiniteMap

/-! ### The name of a peer in its buffer -/

/-- `strcpy(buffer + offset, src)` in a buffer of `FILENAME_BUFF_SIZE` bytes. -/
def strcpy (buffer : ℕ → Byte) (offset : ℤ) (src : CString) : Except Abort (ℕ → Byte) :=
  if 0 ≤ offset ∧ offset + src.length < FILENAME_BUFF_SIZE then
    .ok fun k =>
      if offset ≤ k then ((src ++ [0])[k - offset.toNat]?).getD (buffer k) else buffer k
  else .error .bufferOverflow

/-- The `slave` branch of `fd_table_insert_dup`, on its array. -/
def slaveBuffer (buffer : ℕ → Byte) (filename : CString) : Except Abort (ℕ → Byte) := do
  let buffer ← strcpy buffer 0 filename
  let len := (bufferString buffer).length
  if len + 7 < FILENAME_BUFF_SIZE then strcpy buffer len (cstr " slave")
  else strcpy buffer ((len : ℤ) - 10) (cstr "... slave")

/-- The buffer starts with a string and its NUL. -/
def StartsWith (buffer : ℕ → Byte) (s : CString) : Prop :=
  ∀ k ≤ s.length, (s ++ [0])[k]? = some (buffer k)

/-- The bytes of a string up to its NUL are the string. -/
theorem untilNul_of_bytes {buffer : ℕ → Byte} {s : CString} {i n : ℕ} (hs : 0 ∉ s)
    (hn : s.length < n) (h : ∀ k ≤ s.length, (s ++ [0])[k]? = some (buffer (i + k))) :
    untilNul (fun i => some (buffer i)) i n = s := by
  obtain ⟨n, rfl⟩ : ∃ m, n = m + 1 := ⟨n - 1, by omega⟩
  have hfirst := h 0 (Nat.zero_le _)
  induction s generalizing i n with
  | nil =>
      have hzero : buffer i = 0 := by simpa using hfirst.symm
      rw [untilNul, hzero]
      exact if_pos rfl
  | cons b s ih =>
      rw [List.length_cons] at hn
      obtain ⟨n, rfl⟩ : ∃ m, n = m + 1 := ⟨n - 1, by omega⟩
      have hb : buffer i = b := by simpa using hfirst.symm
      have hne : b ≠ 0 := fun hzero => hs (by rw [hzero]; exact List.mem_cons_self)
      have hbytes : ∀ k ≤ s.length, (s ++ [0])[k]? = some (buffer (i + 1 + k)) := by
        intro k hk
        have hsucc := h (k + 1) (by rw [List.length_cons]; omega)
        rw [List.cons_append, List.getElem?_cons_succ] at hsucc
        rw [hsucc, Nat.add_right_comm, Nat.add_assoc]
      have htail := ih (fun hmem => hs (List.mem_cons_of_mem b hmem)) hbytes n (by omega)
        (hbytes 0 (Nat.zero_le _))
      rw [untilNul, hb]
      simp only [if_neg hne, htail]

/-- The string that a buffer starts with is the one that it holds. -/
theorem bufferString_of_startsWith {buffer : ℕ → Byte} {s : CString} (hs : 0 ∉ s)
    (h : StartsWith buffer s) (hlen : s.length < FILENAME_BUFF_SIZE) : bufferString buffer = s :=
  untilNul_of_bytes hs hlen fun k hk => by rw [Nat.zero_add]; exact h k hk

/-- **A string is copied** behind the first `n` bytes of the one in the buffer. -/
theorem strcpy_startsWith {buffer : ℕ → Byte} {s : CString} {n : ℕ} (src : CString)
    (h : ∀ k < n, s[k]? = some (buffer k)) (hn : n ≤ s.length)
    (hfits : n + src.length < FILENAME_BUFF_SIZE) :
    ∃ buffer', strcpy buffer n src = .ok buffer' ∧ StartsWith buffer' (s.take n ++ src) := by
  have hlen : (s.take n).length = n := by rw [List.length_take]; omega
  refine ⟨_, if_pos ⟨Int.natCast_nonneg n, by omega⟩, fun k hk => ?_⟩
  rw [List.length_append, hlen] at hk
  rw [List.append_assoc]
  by_cases hkn : k < n
  · have hfalse : ¬(n : ℤ) ≤ k := by omega
    rw [if_neg hfalse, List.getElem?_append_left (by omega), List.getElem?_take_of_lt hkn, h k hkn]
  · have htrue : (n : ℤ) ≤ k := by omega
    have hin : k - n < (src ++ [0]).length := by
      rw [List.length_append, List.length_singleton]
      omega
    rw [if_pos htrue, List.getElem?_append_right (by omega), hlen, Int.toNat_natCast,
      List.getElem?_eq_getElem hin, Option.getD_some]

/-- The string in the buffer after a copy. -/
theorem strcpy_bufferString {buffer : ℕ → Byte} {s : CString} {n : ℕ} (src : CString)
    (hs : 0 ∉ s) (hsrc : 0 ∉ src) (h : ∀ k < n, s[k]? = some (buffer k)) (hn : n ≤ s.length)
    (hfits : n + src.length < FILENAME_BUFF_SIZE) :
    ∃ buffer', strcpy buffer n src = .ok buffer' ∧ bufferString buffer' = s.take n ++ src := by
  obtain ⟨buffer', hcopy, hstarts⟩ := strcpy_startsWith src h hn hfits
  refine ⟨buffer', hcopy, bufferString_of_startsWith ?_ hstarts ?_⟩
  · exact List.not_mem_append (fun hmem => hs (List.mem_of_mem_take hmem)) hsrc
  · rw [List.length_append, List.length_take]
    omega

/-- **The `slave` branch on its array** stays inside of it and builds `slaveName`. -/
theorem slaveBuffer_eq (buffer : ℕ → Byte) {filename : CString} (hnul : 0 ∉ filename)
    (hlen : filename.length ≤ 255) :
    ∃ buffer', slaveBuffer buffer filename = .ok buffer' ∧
      bufferString buffer' = slaveName filename := by
  have hsize : FILENAME_BUFF_SIZE = 256 := rfl
  have hslave : (cstr " slave").length = 6 := rfl
  have hdots : (cstr "... slave").length = 9 := rfl
  have hnothing : ∀ k < 0, filename[k]? = some (buffer k) := fun k hk => absurd hk (by omega)
  obtain ⟨buffer₁, hcopy, hstarts⟩ :=
    strcpy_startsWith filename hnothing (Nat.zero_le _) (by omega)
  rw [List.take_zero, List.nil_append] at hstarts
  have hbytes : ∀ k < filename.length, filename[k]? = some (buffer₁ k) := fun k hk => by
    rw [← hstarts k (by omega), List.getElem?_append_left hk]
  have hbuffer : slaveBuffer buffer filename =
      if filename.length + 7 < FILENAME_BUFF_SIZE then
        strcpy buffer₁ filename.length (cstr " slave")
      else strcpy buffer₁ ((filename.length : ℤ) - 10) (cstr "... slave") := by
    rw [slaveBuffer, show (0 : ℤ) = ((0 : ℕ) : ℤ) from rfl, hcopy, ok_bind,
      bufferString_of_startsWith hnul hstarts (by omega)]
  by_cases hfits : filename.length + 7 < FILENAME_BUFF_SIZE
  · obtain ⟨buffer₂, hcopy₂, hstring⟩ :=
      strcpy_bufferString (cstr " slave") hnul (by decide) hbytes le_rfl (by omega)
    rw [List.take_length] at hstring
    refine ⟨buffer₂, by rw [hbuffer, if_pos hfits, hcopy₂], ?_⟩
    rw [hstring, slaveName_of_fits hfits]
  · have hkept : ∀ k < filename.length - 10, filename[k]? = some (buffer₁ k) :=
      fun k hk => hbytes k (by omega)
    obtain ⟨buffer₂, hcopy₂, hstring⟩ :=
      strcpy_bufferString (cstr "... slave") hnul (by decide) hkept (by omega) (by omega)
    have hoffset : (filename.length : ℤ) - 10 = ((filename.length - 10 : ℕ) : ℤ) := by omega
    refine ⟨buffer₂, by rw [hbuffer, if_neg hfits, hoffset, hcopy₂], ?_⟩
    rw [hstring, slaveName_of_not_fits hfits]

/-- **The name that the `slave` branch builds:** it stays inside the buffer, and the
result is the source's name with the suffix, cut where it would be too long. -/
structure SlaveWritten (filename : CString) (r : Except Abort (ℕ → Byte)) : Prop where
  inside : ∃ buffer, r = .ok buffer ∧ bufferString buffer = slaveName filename
  length : (slaveName filename).length ≤ 254
  shape : ∃ start dots, slaveName filename = start ++ dots ++ cstr " slave" ∧
    start <+: filename ∧
    (filename.length + 6 ≤ 254 ∧ start = filename ∧ dots = [] ∨
      254 < filename.length + 6 ∧ start ≠ filename ∧ dots = cstr "...")

/-- **The name of a peer** is that of the source, cut where the suffix makes it too long. -/
theorem slaveName_shape {filename : CString} (hlen : filename.length ≤ 255) :
    ∃ start dots, slaveName filename = start ++ dots ++ cstr " slave" ∧ start <+: filename ∧
      (filename.length + 6 ≤ 254 ∧ start = filename ∧ dots = [] ∨
        254 < filename.length + 6 ∧ start ≠ filename ∧ dots = cstr "...") := by
  have hsize : FILENAME_BUFF_SIZE = 256 := rfl
  by_cases hfits : filename.length + 7 < FILENAME_BUFF_SIZE
  · exact ⟨filename, [], by rw [slaveName_of_fits hfits, List.append_nil], List.prefix_rfl,
      Or.inl ⟨by omega, rfl, rfl⟩⟩
  · refine ⟨filename.take (filename.length - 10), cstr "...", ?_, List.take_prefix _ _,
      Or.inr ⟨by omega, fun heq => ?_, rfl⟩⟩
    · rw [slaveName_of_not_fits hfits, List.append_assoc]
      rfl
    · have htake := congrArg List.length heq
      rw [List.length_take] at htake
      omega

theorem slaveBuffer_written (buffer : ℕ → Byte) {filename : CString} (hnul : 0 ∉ filename)
    (hlen : filename.length ≤ 255) : SlaveWritten filename (slaveBuffer buffer filename) :=
  ⟨slaveBuffer_eq buffer hnul hlen, slaveName_le hlen, slaveName_shape hlen⟩

/-! ### What a critical section does to the names -/

/-- Every name in every table fits a `filename_buffer`. -/
def Heap.Fits (heap : Heap) : Prop := ∀ a t, heap.tables.cell a = some t → FdTable.Fits t

namespace Heap.Fits

variable {heap : Heap}

/-- A table whose names fit is stored. -/
theorem write (h : heap.Fits) (a : ℕ) {t : FdTable} (ht : t.Fits) :
    Heap.Fits { heap with tables := heap.tables.write a t } := by
  intro b u hu
  by_cases hb : b = a
  · subst hb
    cases hcell : heap.tables.cell b with
    | none => simp [Arena.write, hcell] at hu
    | some v =>
        simp only [Arena.write_cell_self hcell, Option.some.injEq] at hu
        exact hu ▸ ht
  · exact h b u ((Arena.write_cell_ne _ _ hb).symm.trans hu)

/-- A table whose names fit is allocated. -/
theorem alloc (h : heap.Fits) {t : FdTable} (ht : t.Fits) :
    Heap.Fits { heap with tables := heap.tables.alloc t } := by
  intro b u hu
  by_cases hb : b = heap.tables.next
  · subst hb
    simp only [Arena.alloc_cell_self, Option.some.injEq] at hu
    exact hu ▸ ht
  · exact h b u ((Arena.alloc_cell_ne _ _ hb).symm.trans hu)

theorem free (h : heap.Fits) (a : ℕ) :
    Heap.Fits { heap with tables := heap.tables.free a } := by
  intro b u hu
  by_cases hb : b = a
  · subst hb
    simp at hu
  · exact h b u ((Arena.free_cell_ne _ hb).symm.trans hu)

/-- A table that is locked has names that fit. -/
theorem lockedTable (h : heap.Fits) (fdTable fdMutex : ℕ) :
    Ensures FdTable.Fits (heap.lockedTable fdTable fdMutex) := by
  unfold Heap.lockedTable
  split
  · exact h _ _ ‹_›
  · exact nofun

/-- **A critical section** whose body keeps the names within the buffer. -/
theorem locked (h : heap.Fits) (fdTable fdMutex : ℕ) {body : FdTable → Except Abort FdTable}
    (hbody : ∀ t, FdTable.Fits t → Ensures FdTable.Fits (body t)) :
    Ensures Heap.Fits (heap.locked fdTable fdMutex body) :=
  (h.lockedTable fdTable fdMutex).bind fun t ht =>
    (hbody t ht).bind fun _ ht' => h.write fdTable ht'

/-- A critical section that cannot fail. -/
theorem lockedOk (h : heap.Fits) (fdTable fdMutex : ℕ) {f : FdTable → FdTable}
    (hf : ∀ t, FdTable.Fits t → FdTable.Fits (f t)) :
    Ensures Heap.Fits (heap.locked fdTable fdMutex fun t => .ok (f t)) :=
  h.locked fdTable fdMutex fun t ht => hf t ht

/-- The copy of a table fits like the table. -/
theorem deepCopy (h : heap.Fits) (fdTable fdMutex : ℕ) :
    Ensures Heap.Fits (heap.deepCopy fdTable fdMutex) :=
  (h.lockedTable fdTable fdMutex).bind fun t ht => h.alloc (by rwa [fdTableDeepCopy_eq])

theorem atomicGet (heap : Heap) (count : ℕ) :
    Ensures (fun _ => True) (heap.atomicGet count) := by
  unfold Heap.atomicGet
  split
  · trivial
  · exact nofun

theorem atomicInc (h : heap.Fits) (count : ℕ) : Ensures Heap.Fits (heap.atomicInc count) :=
  (atomicGet heap count).bind fun _ _ => h

theorem atomicDecAndTest (h : heap.Fits) (count : ℕ) :
    Ensures (fun r => Heap.Fits r.2) (heap.atomicDecAndTest count) :=
  (atomicGet heap count).bind fun _ _ => h

theorem fdTableFree (h : heap.Fits) (fdTable : ℕ) :
    Ensures Heap.Fits (heap.fdTableFree fdTable) := by
  unfold Heap.fdTableFree
  split
  · exact h.free fdTable
  · exact nofun

theorem freeCount (h : heap.Fits) (count : ℕ) : Ensures Heap.Fits (heap.freeCount count) := by
  unfold Heap.freeCount
  split
  · exact h
  · exact nofun

theorem freeMutex (h : heap.Fits) (mutex : ℕ) : Ensures Heap.Fits (heap.freeMutex mutex) := by
  unfold Heap.freeMutex
  split
  · exact h
  · exact nofun

/-- **An atomic step** of a thread that gives up its share puts no name in a table. -/
theorem threadStep (h : heap.Fits) (l : Local) :
    Ensures (fun r => Heap.Fits r.1) (threadStep heap l) := by
  unfold Iotrace.threadStep
  split
  · exact (atomicGet heap _).bind fun _ _ => h
  · exact (h.deepCopy _ _).bind fun _ h' => h'
  · exact (h.atomicDecAndTest _).bind fun _ h' => h'
  · exact (h.fdTableFree _).bind fun _ h' => h'
  · exact h
  · exact (h.atomicInc _).bind fun _ h' => h'
  · exact (h.lockedOk _ _ fun t ht => ht.removeCloexec).bind fun _ h' => h'
  · exact (h.atomicDecAndTest _).bind fun _ h' => h'
  · exact (h.fdTableFree _).bind fun _ h' => h'
  · exact (h.freeCount _).bind fun _ h' => h'
  · exact (h.freeMutex _).bind fun _ h' => h'
  · exact h
  · exact h

/-- A record that is freed takes a table with it at most. -/
theorem freeSingleThreadTmps (h : heap.Fits) (tmps : ThreadTmps) :
    Ensures Heap.Fits (freeSingleThreadTmps heap tmps) := by
  refine (h.atomicDecAndTest _).bind fun r hr => ?_
  obtain ⟨last, heap₁⟩ := r
  cases last with
  | false => exact hr
  | true =>
      exact (hr.fdTableFree _).bind fun _ h₂ => (h₂.freeCount _).bind fun _ h₃ => h₃.freeMutex _

end Heap.Fits

/-! ### What the handlers do to the names -/

/-- The names of the calls that the thread is in the middle of fit as well. -/
def HandlerStage.Fits (stage : HandlerStage) (tmps : ThreadTmps) : Prop :=
  match stage with
  | .entered syscall => sysno syscall = .SYS_open ∨ sysno syscall = .SYS_openat →
      (bufferString tmps.filenameBuffer).length < FILENAME_BUFF_SIZE
  | .pairing second => second.filenameB.length < FILENAME_BUFF_SIZE
  | _ => True

theorem saveCurrentTime_ensures (tmps : ThreadTmps) (stop : Stop) (sc : CInt) :
    Ensures (fun tmps' => tmps'.filenameBuffer = tmps.filenameBuffer)
      (saveCurrentTime tmps stop sc) := by
  unfold saveCurrentTime
  split
  · rfl
  · exact nofun

theorem calcElapsedNs_ensures (tmps : ThreadTmps) (stop : Stop) (sc : CInt) :
    Ensures (fun _ => True) (calcElapsedNs tmps stop sc) := by
  unfold calcElapsedNs
  split
  · trivial
  · exact nofun

/-- **The name of an open** fits: `read_string` cuts it. -/
theorem handleOpenCall_ensures (tmps : ThreadTmps) (stop : Stop) (sc : CInt) (openat : Bool) :
    Ensures (fun tmps' => (bufferString tmps'.filenameBuffer).length < FILENAME_BUFF_SIZE)
      (handleOpenCall tmps stop sc openat) := by
  unfold handleOpenCall
  rcases hread : readString stop.mem (stop.user (if openat then Reg.RSI else Reg.RDI))
    tmps.filenameBuffer FILENAME_BUFF_SIZE with ⟨ret, buffer⟩
  simp only [hread]
  by_cases hret : ret = 0
  · subst hret
    rw [if_pos rfl]
    refine (saveCurrentTime_ensures _ stop sc).mono fun tmps' hbuffer => ?_
    rw [hbuffer, readString_eq hread]
    exact pathAt_length _ _
  · rw [if_neg hret]
    exact nofun

/-- **The call handlers** leave a name that fits. -/
theorem handleSyscallCall_ensures (tmps : ThreadTmps) (stop : Stop) (sc : CInt) :
    Ensures (HandlerStage.entered sc).Fits (handleSyscallCall tmps stop sc) := by
  unfold handleSyscallCall
  have hother : ∀ tmps, sysno sc ≠ .SYS_open → sysno sc ≠ .SYS_openat →
      Ensures (HandlerStage.entered sc).Fits (saveCurrentTime tmps stop sc) := by
    intro tmps hopen hopenat
    refine (saveCurrentTime_ensures tmps stop sc).mono fun tmps' _ h => ?_
    rcases h with h | h
    · exact absurd h hopen
    · exact absurd h hopenat
  cases hsc : sysno sc
  case SYS_open => exact (handleOpenCall_ensures tmps stop sc false).mono fun _ h _ => h
  case SYS_openat => exact (handleOpenCall_ensures tmps stop sc true).mono fun _ h _ => h
  all_goals exact hother _ (by simp [hsc]) (by simp [hsc])

/-- A label or a name that fits is entered. -/
theorem insertFd_ensures {s : Tracer} (h : s.heap.Fits) (fd : CInt) {filename : CString}
    (hname : filename.length < FILENAME_BUFF_SIZE) (cloexec : Bool) :
    Ensures (fun s' => s'.heap.Fits) (insertFd s fd filename cloexec) :=
  (h.lockedOk _ _ fun _ ht => ht.insert fd hname cloexec).bind fun _ h' => h'

/-- **A handler of one new descriptor** enters a name that fits. -/
theorem returnFd_ensures {s : Tracer} (h : s.heap.Fits) (stop : Stop) (sc : CInt)
    {filename : CString} (hname : filename.length < FILENAME_BUFF_SIZE) (cloexec : Bool) :
    Ensures (fun s' => s'.heap.Fits) (returnFd s stop sc filename cloexec) := by
  refine (calcElapsedNs_ensures _ _ _).bind fun elapsedNs _ => ?_
  dsimp only
  split_ifs
  · exact (insertFd_ensures h _ hname _).bind fun _ h' => h'
  · exact h

theorem attributedFile_ensures {s : Tracer} (h : s.heap.Fits) :
    Ensures (fun _ => True) (attributedFile s) :=
  (h.lockedTable _ _).bind fun _ _ => trivial

/-- A handler that looks a name up and counts. -/
theorem attributed_ensures {s : Tracer} (h : s.heap.Fits) (stop : Stop) (sc : CInt)
    {f : CULongLong → CString → FileStatTable} :
    Ensures (fun s' => s'.heap.Fits) (do
      let elapsedNs ← calcElapsedNs s.tmps stop sc
      let filename ← attributedFile s
      .ok { s with fileStatTable := f elapsedNs filename }) :=
  (calcElapsedNs_ensures _ _ _).bind fun _ _ => (attributedFile_ensures h).bind fun _ _ => h

theorem handleDupReturn_ensures {heap : Heap} (h : heap.Fits) (tmps : ThreadTmps) (stop : Stop) :
    Ensures Heap.Fits (handleDupReturn heap tmps stop) := by
  unfold handleDupReturn
  dsimp only
  split_ifs
  · exact h.locked _ _ fun t ht => fdTableInsertDup_ensures ht _ _ _ _
  · exact h

/-- `fcntl` duplicates or changes a flag. -/
theorem handleFcntlReturn_ensures {heap : Heap} (h : heap.Fits) (tmps : ThreadTmps)
    (stop : Stop) : Ensures Heap.Fits (handleFcntlReturn heap tmps stop) := by
  unfold handleFcntlReturn
  dsimp only
  split_ifs
  · exact h.locked _ _ fun t ht => fdTableInsertDup_ensures ht _ _ _ _
  · exact h.locked _ _ fun t ht => fdTableInsertDup_ensures ht _ _ _ _
  · exact h.locked _ _ fun t ht => fdTableSetCloexec_ensures ht _ _
  · exact h
  · exact h

theorem handleIoctlReturn_ensures {heap : Heap} (h : heap.Fits) (tmps : ThreadTmps)
    (stop : Stop) : Ensures Heap.Fits (handleIoctlReturn heap tmps stop) := by
  unfold handleIoctlReturn
  split_ifs
  · exact h.locked _ _ fun t ht => fdTableInsertDup_ensures ht _ _ _ _
  · exact h

/-- The two switches for the syscalls that are counted by their numbers. -/
theorem handleUnconsidered_ensures {s : Tracer} (h : s.heap.Fits) (stop : Stop) {sc : CInt}
    (hexec : sysno sc ≠ .SYS_execve) :
    Ensures (fun s' => s'.heap.Fits) (do
      let s ← handleUnconsideredReturn s stop sc
      handleUnconsideredSwitch s stop sc) := by
  have hreturn : Ensures (fun s' => s'.heap.Fits) (handleUnconsideredReturn s stop sc) :=
    (calcElapsedNs_ensures _ _ _).bind fun _ _ => h
  refine hreturn.bind fun s' h' => ?_
  unfold handleUnconsideredSwitch
  cases hsc : sysno sc
  case SYS_dup | SYS_dup2 | SYS_dup3 =>
    exact (handleDupReturn_ensures h' _ stop).bind fun _ h₂ => h₂
  case SYS_fcntl => exact (handleFcntlReturn_ensures h' _ stop).bind fun _ h₂ => h₂
  case SYS_ioctl => exact (handleIoctlReturn_ensures h' _ stop).bind fun _ h₂ => h₂
  case SYS_execve => exact absurd hsc hexec
  all_goals exact h'

/-- The labels are short. -/
theorem label_length {name : CString}
    (h : name ∈ [PIPE_R, PIPE_W, SOCKET, EVENTFD, EPOLL, ACCEPT]) :
    name.length < FILENAME_BUFF_SIZE := by
  have hall : ∀ name ∈ [PIPE_R, PIPE_W, SOCKET, EVENTFD, EPOLL, ACCEPT],
      name.length < FILENAME_BUFF_SIZE := by decide
  exact hall name h

/-- **A return handler of one section** keeps the names within the buffer. -/
theorem handleSyscallReturn_ensures {s : Tracer} (h : s.heap.Fits) (stop : Stop) {sc : CInt}
    (hname : (HandlerStage.entered sc).Fits s.tmps)
    (hone : sysno sc ∉ [.SYS_close, .SYS_pipe, .SYS_pipe2, .SYS_socketpair, .SYS_execve]) :
    Ensures (fun s' => s'.heap.Fits) (handleSyscallReturn s stop sc) := by
  simp only [List.mem_cons, List.not_mem_nil, or_false, not_or] at hone
  obtain ⟨hclose, hpipe, hpipe2, hpair, hexec⟩ := hone
  unfold handleSyscallReturn
  cases hsc : sysno sc
  case SYS_open => exact returnFd_ensures h _ _ (hname (Or.inl hsc)) _
  case SYS_openat => exact returnFd_ensures h _ _ (hname (Or.inr hsc)) _
  case SYS_close => exact absurd hsc hclose
  case SYS_pipe => exact absurd hsc hpipe
  case SYS_pipe2 => exact absurd hsc hpipe2
  case SYS_socketpair => exact absurd hsc hpair
  case SYS_read | SYS_readv | SYS_preadv | SYS_preadv2 | SYS_pread64 =>
    exact attributed_ensures h _ _
  case SYS_write | SYS_writev | SYS_pwritev | SYS_pwritev2 | SYS_pwrite64 =>
    exact attributed_ensures h _ _
  case SYS_socket | SYS_eventfd | SYS_eventfd2 | SYS_epoll_create | SYS_epoll_create1
      | SYS_accept | SYS_accept4 =>
    exact returnFd_ensures h _ _ (label_length (by simp)) _
  all_goals exact handleUnconsidered_ensures h _ hexec

/-- The first of two new descriptors is entered, and the name of the second fits. -/
theorem returnPairFirst_ensures {s : Tracer} (h : s.heap.Fits) (stop : Stop) (sc : CInt)
    {filenameA filenameB : CString} (hA : filenameA.length < FILENAME_BUFF_SIZE)
    (hB : filenameB.length < FILENAME_BUFF_SIZE) (cloexec : Bool) :
    Ensures (fun r => r.1.heap.Fits ∧ r.2.Fits r.1.tmps)
      (returnPairFirst s stop sc filenameA filenameB cloexec) := by
  refine (calcElapsedNs_ensures _ _ _).bind fun elapsedNs _ => ?_
  split_ifs
  · exact (insertFd_ensures h _ hA _).bind fun _ h' => ⟨h', hB⟩
  · exact ⟨h, trivial⟩

/-- **A section of a return handler** keeps all names within the buffer, and copies no
longer name. -/
theorem handlerSection_ensures {stage : HandlerStage} {s : Tracer} (h : s.heap.Fits)
    (hstage : stage.Fits s.tmps) (stop : Stop) :
    Ensures (fun r => r.1.heap.Fits ∧ r.2.Fits r.1.tmps) (handlerSection stage stop s) := by
  have hidle : ∀ {x : Except Abort Tracer}, Ensures (fun s' => s'.heap.Fits) x →
      Ensures (fun r => r.1.heap.Fits ∧ r.2.Fits r.1.tmps)
        (x >>= fun s => .ok (s, HandlerStage.idle)) :=
    fun hx => hx.bind fun _ h' => ⟨h', trivial⟩
  cases stage with
  | idle => exact ⟨h, trivial⟩
  | entered syscall =>
      unfold handlerSection
      by_cases hone : sysno syscall ∉
          [.SYS_close, .SYS_pipe, .SYS_pipe2, .SYS_socketpair, .SYS_execve]
      · have hreturn := hidle (handleSyscallReturn_ensures h stop hstage hone)
        cases hsc : sysno syscall <;> simp only [hsc] at hone ⊢ <;>
          first | exact hreturn | exact absurd (by decide) hone
      · simp only [not_not, List.mem_cons, List.not_mem_nil, or_false] at hone
        rcases hone with hsc | hsc | hsc | hsc | hsc <;> simp only [hsc]
        · exact (attributed_ensures h stop syscall).bind fun _ h' => ⟨h', trivial⟩
        · exact returnPairFirst_ensures h _ _ (label_length (by simp)) (label_length (by simp)) _
        · exact returnPairFirst_ensures h _ _ (label_length (by simp)) (label_length (by simp)) _
        · exact returnPairFirst_ensures h _ _ (label_length (by simp)) (label_length (by simp)) _
        · have hcount : Ensures (fun s' => s'.heap.Fits)
              (handleUnconsideredReturn s stop syscall) :=
            (calcElapsedNs_ensures _ _ _).bind fun _ _ => h
          exact hcount.bind fun _ h' => ⟨h', trivial⟩
  | removing =>
      exact hidle ((h.lockedOk _ _ fun t ht => ht.remove s.tmps.intA).bind fun _ h' => h')
  | pairing second => exact hidle ((insertFd_ensures h _ hstage _).bind fun _ h' => h')
  | unsharing pc =>
      refine (h.threadStep ⟨s.tmps, pc⟩).bind fun r hr => ⟨hr, ?_⟩
      split_ifs
      · trivial
      · trivial

/-! ### What threads do with records -/

/-- A record is entered, and one that it replaces is freed. -/
theorem threadTmpsInsert_ensures {p : Process} (h : p.heap.Fits) (thread : CInt)
    (block : ThreadTmps) (fdTable : ℕ) (shareCount sharedFdMutex : Option ℕ) :
    Ensures (fun p' => p'.heap.Fits ∧
      ∃ tmps, p'.threadTmpsTable = p.threadTmpsTable.insert thread tmps)
      (threadTmpsInsert p thread block fdTable shareCount sharedFdMutex) := by
  have htable : ∀ {heap : Heap}, heap.Fits → ∀ tmps,
      Ensures (fun p' => p'.heap.Fits ∧
        ∃ tmps, p'.threadTmpsTable = p.threadTmpsTable.insert thread tmps)
        (threadTmpsTableInsert { p with heap } thread tmps) := by
    intro heap hheap tmps
    unfold threadTmpsTableInsert
    dsimp only
    cases p.threadTmpsTable.lookup thread with
    | none => exact ⟨hheap, tmps, rfl⟩
    | some old => exact (hheap.freeSingleThreadTmps old).bind fun _ h' => ⟨h', tmps, rfl⟩
  unfold threadTmpsInsert
  split
  · exact (h.atomicInc _).bind fun _ h' => htable h' _
  · have hshared : p.heap.allocShared.Fits := h
    exact (hshared.atomicInc _).bind fun _ h' => htable h' _

/-- Start data is handed to a child, with a copy of the table if it is not shared. -/
theorem threadsAdd_ensures {w : World} (h : w.process.heap.Fits) (child tracee flags : CInt) :
    Ensures (fun w' => w'.process.heap.Fits ∧
      w'.process.threadTmpsTable = w.process.threadTmpsTable)
      (threadsAdd w child tracee flags) := by
  unfold threadsAdd
  cases threadTmpsLookup w.process tracee with
  | none => exact nofun
  | some tmps =>
      dsimp only
      split_ifs
      · exact ⟨h, rfl⟩
      · exact (h.deepCopy _ _).bind fun _ h' => ⟨h', rfl⟩

/-- A thread that starts enters its record. -/
theorem threadFunc_ensures {w : World} (h : w.process.heap.Fits) {tracee : CInt}
    (block : ThreadTmps) {data : StartData} (hdata : w.started.lookup tracee = some data) :
    Ensures (fun w' => w'.process.heap.Fits ∧
      ∃ tmps, w'.process.threadTmpsTable = w.process.threadTmpsTable.insert tracee tmps)
      (threadFunc w tracee block) := by
  unfold threadFunc
  simp only [hdata]
  exact (threadTmpsInsert_ensures h _ _ _ _ _).bind fun _ h' => h'

/-- A thread that ends removes a record. -/
theorem tracerEnd_ensures {w : World} (h : w.process.heap.Fits) (tracee : CInt) :
    Ensures (fun w' => w'.process.heap.Fits ∧ ∀ x tmps,
      w'.process.threadTmpsTable.lookup x = some tmps →
        w.process.threadTmpsTable.lookup x = some tmps)
      (tracerEnd w tracee) := by
  have hremove : Ensures (fun r => r.2.heap.Fits ∧ ∀ x tmps,
      r.2.threadTmpsTable.lookup x = some tmps →
        w.process.threadTmpsTable.lookup x = some tmps) (threadTmpsRemove w.process tracee) := by
    unfold threadTmpsRemove
    cases w.process.threadTmpsTable.lookup tracee with
    | none => exact ⟨h, fun _ _ hx => hx⟩
    | some tmps =>
        refine (h.freeSingleThreadTmps tmps).bind fun _ h' => ⟨h', fun x tmps hx => ?_⟩
        rw [lookup_erase_eq] at hx
        split_ifs at hx
        exact hx
  exact hremove.bind fun _ h' => h'

/-! ### Runs -/

namespace HandlerRun

/-- The invariant: all names fit, those in the tables and those on their way to one. -/
structure Sound (s : HandlerRun) : Prop where
  heap : s.world.process.heap.Fits
  stages : ∀ tracee tmps, s.world.process.threadTmpsTable.lookup tracee = some tmps →
    (s.thread tracee).stage.Fits tmps

/-- A thread goes on with its own record. -/
theorem Sound.put {s : HandlerRun} (h : s.Sound) (tracee : CInt) {r : Tracer × HandlerStage}
    (hheap : r.1.heap.Fits) (hstage : r.2.Fits r.1.tmps) : (s.put tracee r).Sound := by
  refine ⟨hheap, fun x tmps hx => ?_⟩
  simp only [HandlerRun.put, lookup_insert_eq] at hx
  simp only [HandlerRun.put, Function.update_apply]
  split_ifs at hx ⊢
  · exact Option.some.inj hx ▸ hstage
  · exact h.stages x tmps hx

/-- A thread finds a record and a heap that fit. -/
theorem Sound.tracer {s : HandlerRun} (h : s.Sound) (tracee : CInt) :
    Ensures (fun t => t.heap.Fits ∧ (s.thread tracee).stage.Fits t.tmps) (s.tracer tracee) := by
  unfold HandlerRun.tracer threadTmpsLookup
  cases htmps : s.world.process.threadTmpsTable.lookup tracee with
  | none => exact nofun
  | some tmps => exact ⟨h.heap, h.stages tracee tmps htmps⟩

/-- **One step** keeps the invariant and copies no name that is too long. -/
theorem step_ensures {s : HandlerRun} (h : s.Sound) (a : HandlerStep) :
    Ensures Sound (s.step a) := by
  cases a with
  | call tracee stop =>
      cases hstage : (s.thread tracee).stage <;> simp only [step, hstage]
      case idle =>
        refine (h.tracer tracee).bind fun t ht => ?_
        exact (handleSyscallCall_ensures _ _ _).bind fun tmps htmps => h.put tracee ht.1 htmps
      all_goals exact h
  | handle tracee stop =>
      have hsection : Ensures Sound (do
          let t ← s.tracer tracee
          let r ← handlerSection (s.thread tracee).stage stop t
          .ok (s.put tracee r)) := by
        refine (h.tracer tracee).bind fun t ht => ?_
        exact (handlerSection_ensures ht.1 ht.2 stop).bind fun r hr => h.put tracee hr.1 hr.2
      cases hstage : (s.thread tracee).stage <;> simp only [step, hstage]
      case idle => exact h
      all_goals
        rw [hstage] at hsection
        exact hsection
  | threadsAdd child tracee flags =>
      refine (threadsAdd_ensures h.heap child tracee flags).bind fun w hw => ⟨hw.1, ?_⟩
      intro x tmps hx
      exact h.stages x tmps (hw.2 ▸ hx)
  | threadFunc tracee block =>
      cases hdata : s.world.started.lookup tracee <;> simp only [step, hdata]
      case none => exact h
      case some data =>
          refine (threadFunc_ensures h.heap block hdata).bind fun w hw => ⟨hw.1, ?_⟩
          obtain ⟨-, tmps', hrecords⟩ := hw
          intro x tmps hx
          rw [hrecords, lookup_insert_eq] at hx
          simp only [Function.update_apply]
          split_ifs at hx ⊢
          · trivial
          · exact h.stages x tmps hx
  | tracerEnd tracee =>
      refine (tracerEnd_ensures h.heap tracee).bind fun w hw => ⟨hw.1, ?_⟩
      exact fun x tmps hx => h.stages x tmps (hw.2 x tmps hx)

/-- The main thread starts with short names. -/
theorem start_sound (tracee : CInt) (block : ThreadTmps) :
    ∃ w, mainTracer tracee block = .ok w ∧ (start w).Sound := by
  obtain ⟨w, tmps, hw, -, hrecords, -⟩ := World.mainTracer_sound tracee block
  refine ⟨w, hw, ?_, fun _ _ _ => trivial⟩
  have hempty : Heap.Fits ⟨Arena.empty, Arena.empty, Arena.empty⟩ := nofun
  have hfirst : Ensures (fun w => w.process.heap.Fits) (mainTracer tracee block) :=
    (threadTmpsInsert_ensures (hempty.alloc fdTableCreate_fits) tracee block 0 none none).bind
      fun _ h' => h'.1
  exact hfirst.of_ok hw

/-- Every name in every table has at most 255 bytes. -/
def NamesFit (s : HandlerRun) : Prop :=
  ∀ a t fd entry, s.world.process.heap.tables.cell a = some t → t.lookup fd = some entry →
    entry.filename.length ≤ 255

end HandlerRun

/-- **All names fit the buffer of 256 bytes:** in every state of every run every name
in every table has at most 255 bytes, no step copies a longer one into the buffer, and
the name of a peer is built inside of it, for every name of at most 255 bytes. -/
theorem names_fit (tracee : CInt) (block : ThreadTmps) (l : List HandlerStep) :
    (∃ w, mainTracer tracee block = .ok w ∧
      Always HandlerRun.step HandlerRun.NamesFit (.start w) l ∧
      Along HandlerRun.step (fun s a => s.step a ≠ .error .bufferOverflow) (.start w) l) ∧
    ∀ (buffer : ℕ → Byte) (filename : CString), 0 ∉ filename → filename.length ≤ 255 →
      SlaveWritten filename (slaveBuffer buffer filename) := by
  refine ⟨?_, fun buffer filename hnul hlen => slaveBuffer_written buffer hnul hlen⟩
  obtain ⟨w, hw, hsound⟩ := HandlerRun.start_sound tracee block
  obtain ⟨halways, halong⟩ :=
    always_of_ends (fun s a h => HandlerRun.step_ensures (s := s) h a) hsound l
  refine ⟨w, hw, halways.mono fun s h a t fd entry ht hentry => ?_, halong.mono fun s a h => ?_⟩
  · exact Nat.le_of_lt_succ (h.heap a t ht fd entry hentry)
  · exact h.ne_error fun hne => hne rfl

/-- Of a name of 251 bytes the last ten are replaced. -/
theorem names_fit_long :
    SlaveWritten (List.replicate 251 0x61) (slaveBuffer (fun _ => 0) (List.replicate 251 0x61)) :=
  (names_fit 1 ⟨⟨0, 0⟩, 0, 0, 0, 0, fun _ => 0, 0, 0, 0⟩ []).2 _ _
    (fun h => absurd (List.eq_of_mem_replicate h) (by decide))
    (by rw [List.length_replicate]; omega)

end Iotrace
