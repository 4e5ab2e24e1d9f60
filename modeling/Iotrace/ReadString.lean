/-
# The file name that an open reads

`read_string` of `src/syscall_handler.c` copies words from the tracee's memory
until one of them contains a NUL or the buffer is full.  `readString_eq` says
what the buffer then holds as a C string: the path at the given address, cut to
255 bytes (`pathAt`).

The last word goes beyond the NUL.  Where a name lies at the end of what is mapped,
`PTRACE_PEEKDATA` fails on it and so does `read_string`, although every byte of the
name can be read (`name_at_end_not_read`); otherwise it reads all names
(`readString_readsName_iff`).
-/

import Iotrace.SyscallHandler

namespace Iotrace

/-- The path that starts at address `base`, cut to 255 bytes. -/
def pathAt (mem : Memory) (base : CLong) : CString :=
  untilNul (fun i => mem (base + BitVec.ofNat 64 i)) 0 (FILENAME_BUFF_SIZE - 1)

/-- Two strings that agree up to `m`, where both end, are equal. -/
theorem untilNul_congr {f g : ℕ → Option Byte} {m : ℕ} :
    ∀ {n n' i : ℕ}, i ≤ m → (∀ k, i ≤ k → k < m → f k = g k) → m ≤ i + n → m ≤ i + n' →
      (m = i + n ∨ f m = some 0) → (m = i + n' ∨ g m = some 0) →
        untilNul f i n = untilNul g i n' := by
  intro n
  induction n with
  | zero =>
      intro n' i hi hfg hn hn' _ hg
      have him : m = i := by omega
      subst him
      cases n' with
      | zero => rfl
      | succ n' =>
          rcases hg with hg | hg
          · omega
          · simp [untilNul, hg]
  | succ n ih =>
      intro n' i hi hfg hn hn' hf hg
      rcases Nat.lt_or_ge i m with hlt | hge
      · obtain ⟨n', rfl⟩ : ∃ k, n' = k + 1 := ⟨n' - 1, by omega⟩
        have hhead := hfg i le_rfl hlt
        have htail : untilNul f (i + 1) n = untilNul g (i + 1) n' :=
          ih (by omega) (fun k hk hkm => hfg k (by omega) hkm) (by omega) (by omega)
            (hf.imp_left (by omega)) (hg.imp_left (by omega))
        simp only [untilNul, hhead, htail]
      · have him : m = i := by omega
        subst him
        have hf0 : untilNul f m (n + 1) = [] := by
          rcases hf with hf | hf
          · omega
          · simp [untilNul, hf]
        rw [hf0]
        cases n' with
        | zero => rfl
        | succ n' =>
            rcases hg with hg | hg
            · omega
            · simp [untilNul, hg]

theorem memcpyWord_of_mem {dest : ℕ → Byte} {offset k : ℕ} {data : CLong}
    (h : offset ≤ k ∧ k < offset + 8) : memcpyWord dest offset data k = byteOf data (k - offset) :=
  if_pos h

theorem memcpyWord_of_notMem {dest : ℕ → Byte} {offset k : ℕ} {data : CLong}
    (h : ¬(offset ≤ k ∧ k < offset + 8)) : memcpyWord dest offset data k = dest k :=
  if_neg h

/-- A word copied from the tracee's memory extends what `dest` agrees on with it. -/
theorem memcpyWord_agrees {mem : Memory} {base data : CLong} {dest : ℕ → Byte} {i : ℕ}
    (hdata : peekData mem (base + BitVec.ofNat 64 (i * 8)) = some data)
    (hdest : ∀ k < i * 8, mem (base + BitVec.ofNat 64 k) = some (dest k)) :
    ∀ k < (i + 1) * 8,
      mem (base + BitVec.ofNat 64 k) = some (memcpyWord dest (i * 8) data k) := by
  intro k hk
  by_cases hlt : k < i * 8
  · rw [memcpyWord_of_notMem (by omega), hdest k hlt]
  · rw [memcpyWord_of_mem ⟨by omega, by omega⟩, ← byteOf_peekData hdata (by omega : k - i * 8 < 8),
      BitVec.add_assoc, ← BitVec.ofNat_add]
    congr 3
    omega

/-- **What the loop of `read_string` returns with:** a `dest` that agrees with
the tracee's memory before a NUL, or before the last byte of the buffer. -/
theorem readStringLoop_agrees {mem : Memory} {base : CLong} {n i : ℕ} {dest d : ℕ → Byte}
    (hn : (i + n) * 8 = FILENAME_BUFF_SIZE)
    (hdest : ∀ k < i * 8, mem (base + BitVec.ofNat 64 k) = some (dest k))
    (h : readStringLoop mem base FILENAME_BUFF_SIZE n i dest = (0, d)) :
    ∃ m < FILENAME_BUFF_SIZE, d m = 0 ∧ (∀ k < m, mem (base + BitVec.ofNat 64 k) = some (d k)) ∧
      (m = FILENAME_BUFF_SIZE - 1 ∨ mem (base + BitVec.ofNat 64 m) = some 0) := by
  have hsize : FILENAME_BUFF_SIZE = 256 := rfl
  induction n generalizing i dest with
  | zero =>
      obtain rfl := (Prod.mk.inj h).2
      refine ⟨FILENAME_BUFF_SIZE - 1, by omega, if_pos rfl, fun k hk => ?_, Or.inl rfl⟩
      simp only [if_neg (show ¬k = FILENAME_BUFF_SIZE - 1 by omega)]
      exact hdest k (by omega)
  | succ n ih =>
      unfold readStringLoop at h
      cases hdata : peekData mem (base + BitVec.ofNat 64 (i * 8)) with
      | none =>
          rw [hdata] at h
          exact absurd (Prod.mk.inj h).1 (by decide)
      | some data =>
          rw [hdata] at h
          have hagree := memcpyWord_agrees hdata hdest
          simp only at h
          split_ifs at h with hnul
          · obtain rfl := (Prod.mk.inj h).2
            obtain ⟨j, hj, hz⟩ := List.any_eq_true.mp hnul
            have hj : j < 8 := List.mem_range.mp hj
            have hz : memcpyWord dest (i * 8) data (i * 8 + j) = 0 := by simpa using hz
            refine ⟨i * 8 + j, by omega, hz, fun k hk => hagree k (by omega), Or.inr ?_⟩
            rw [hagree _ (by omega), hz]
          · exact ih (by omega) hagree h

/-- **`read_string` finds the path:** where it succeeds, the buffer holds the
tracee's string, cut to 255 bytes. -/
theorem readString_eq {mem : Memory} {base : CLong} {dest d : ℕ → Byte}
    (h : readString mem base dest FILENAME_BUFF_SIZE = (0, d)) :
    bufferString d = pathAt mem base := by
  have hsize : FILENAME_BUFF_SIZE = 256 := rfl
  obtain ⟨m, hm, hd, hagree, hend⟩ :=
    readStringLoop_agrees (i := 0) (n := 32) (by rw [hsize])
      (fun k hk => absurd hk (by omega)) h
  refine untilNul_congr (m := m) (Nat.zero_le m) (fun k _ hk => (hagree k hk).symm) (by omega)
    (by omega) (Or.inr (by rw [hd])) ?_
  rcases hend with hend | hend
  · exact Or.inl (by omega)
  · exact Or.inr hend

/-- The name read for an open fits the buffer. -/
theorem untilNul_length (f : ℕ → Option Byte) (i n : ℕ) : (untilNul f i n).length ≤ n := by
  induction n generalizing i with
  | zero => exact le_rfl
  | succ n ih =>
      unfold untilNul
      split
      · split_ifs
        · exact Nat.zero_le _
        · simpa using ih (i + 1)
      · exact Nat.zero_le _

theorem pathAt_length (mem : Memory) (base : CLong) :
    (pathAt mem base).length < FILENAME_BUFF_SIZE := by
  have h := untilNul_length (fun i => mem (base + BitVec.ofNat 64 i)) 0 (FILENAME_BUFF_SIZE - 1)
  have hsize : FILENAME_BUFF_SIZE = 256 := rfl
  unfold pathAt
  omega

/-! ### When it succeeds -/

theorem bytesAt_isSome_iff {mem : Memory} {a : CLong} {n : ℕ} :
    (bytesAt mem a n).isSome ↔ ∀ i < n, (mem (a + BitVec.ofNat 64 i)).isSome := by
  induction n generalizing a with
  | zero => exact iff_of_true rfl fun i hi => absurd hi (Nat.not_lt_zero i)
  | succ n ih =>
      rw [bytesAt, Option.isSome_bind]
      constructor
      · intro h i hi
        cases hb : mem a with
        | none => simp [hb] at h
        | some b =>
            simp only [hb, Option.any_some, Option.isSome_map] at h
            cases i with
            | zero => simpa using congrArg Option.isSome hb
            | succ i =>
                rw [← add_one_add_ofNat]
                exact ih.mp h i (by omega)
      · intro h
        obtain ⟨b, hb⟩ := Option.isSome_iff_exists.mp (h 0 (by omega))
        have hb : mem a = some b := by simpa using hb
        rw [hb, Option.any_some, Option.isSome_map, ih]
        intro i hi
        rw [add_one_add_ofNat]
        exact h (i + 1) (by omega)

/-- **`PTRACE_PEEKDATA` succeeds** if and only if all eight bytes are mapped. -/
theorem peekData_isSome_iff {mem : Memory} {a : CLong} :
    (peekData mem a).isSome ↔ ∀ i < 8, (mem (a + BitVec.ofNat 64 i)).isSome := by
  rw [peekData, Option.isSome_map, bytesAt_isSome_iff]

/-- No byte before the `n`-th is a NUL. -/
def NoNulBefore (mem : Memory) (base : CLong) (n : ℕ) : Prop :=
  ∀ j < n, mem (base + BitVec.ofNat 64 j) ≠ some 0

/-- The bytes up to and including the first NUL are mapped, or the first 256 bytes if
none of them is NUL. -/
def NameReadable (mem : Memory) (base : CLong) : Prop :=
  ∀ k < FILENAME_BUFF_SIZE, NoNulBefore mem base k → (mem (base + BitVec.ofNat 64 k)).isSome

/-- Where a name ends with a NUL, the bytes that follow it in the same word of eight
bytes, counted from the start of the name, are mapped. -/
def RestReadable (mem : Memory) (base : CLong) : Prop :=
  ∀ m < FILENAME_BUFF_SIZE, NoNulBefore mem base m → mem (base + BitVec.ofNat 64 m) = some 0 →
    ∀ k, m < k → k < (m / 8 + 1) * 8 → (mem (base + BitVec.ofNat 64 k)).isSome

/-- The words from `i` on that the loop gets to can be read. -/
def WordsReadable (mem : Memory) (base : CLong) (i : ℕ) : Prop :=
  ∀ w, i ≤ w → w * 8 < FILENAME_BUFF_SIZE → NoNulBefore mem base (w * 8) →
    (peekData mem (base + BitVec.ofNat 64 (w * 8))).isSome

/-- **The result of the loop:** 0 if all words can be read that it gets to, and -1
otherwise. -/
theorem readStringLoop_result {mem : Memory} {base : CLong} {n i : ℕ} {dest : ℕ → Byte}
    (hn : (i + n) * 8 = FILENAME_BUFF_SIZE)
    (hdest : ∀ k < i * 8, mem (base + BitVec.ofNat 64 k) = some (dest k))
    (hnul : NoNulBefore mem base (i * 8)) :
    (readStringLoop mem base FILENAME_BUFF_SIZE n i dest).1 = 0 ∧ WordsReadable mem base i ∨
      (readStringLoop mem base FILENAME_BUFF_SIZE n i dest).1 = -1 ∧
        ¬WordsReadable mem base i := by
  induction n generalizing i dest with
  | zero => exact Or.inl ⟨rfl, fun w hw hlt => by omega⟩
  | succ n ih =>
      rw [readStringLoop]
      cases hdata : peekData mem (base + BitVec.ofNat 64 (i * 8)) with
      | none =>
          refine Or.inr ⟨rfl, fun hwords => ?_⟩
          have hsome := hwords i le_rfl (by omega) hnul
          rw [hdata] at hsome
          cases hsome
      | some data =>
          have hagree := memcpyWord_agrees hdata hdest
          have hhere : (peekData mem (base + BitVec.ofNat 64 (i * 8))).isSome := by rw [hdata]; rfl
          simp only
          split_ifs with hend
          · -- The words after the NUL are not read.
            obtain ⟨j, hj, hz⟩ := List.any_eq_true.mp hend
            have hj : j < 8 := List.mem_range.mp hj
            have hz : memcpyWord dest (i * 8) data (i * 8 + j) = 0 := by simpa using hz
            refine Or.inl ⟨rfl, fun w hw _ hbefore => ?_⟩
            rcases Nat.eq_or_lt_of_le hw with rfl | hlt
            · exact hhere
            · have hzero := hagree (i * 8 + j) (by omega)
              rw [hz] at hzero
              exact absurd hzero (hbefore _ (by omega))
          · have hnul' : NoNulBefore mem base ((i + 1) * 8) := by
              intro k hk hzero
              rcases Nat.lt_or_ge k (i * 8) with hlt | hge
              · exact hnul k hlt hzero
              · refine hend (List.any_eq_true.mpr ⟨k - i * 8, List.mem_range.mpr (by omega), ?_⟩)
                have hbyte := Option.some.inj ((hagree k hk).symm.trans hzero)
                rw [show i * 8 + (k - i * 8) = k by omega, hbyte]
                rfl
            have hsplit : WordsReadable mem base i ↔ WordsReadable mem base (i + 1) := by
              constructor
              · exact fun h w hw => h w (by omega)
              · intro h w hw
                rcases Nat.eq_or_lt_of_le hw with rfl | hlt
                · exact fun _ _ => hhere
                · exact h w hlt
            rw [hsplit]
            exact ih (by omega) hagree hnul'

/-- **The words can be read** if and only if the name can, and what follows it in its
last word. -/
theorem wordsReadable_iff (mem : Memory) (base : CLong) :
    WordsReadable mem base 0 ↔ NameReadable mem base ∧ RestReadable mem base := by
  have hsize : FILENAME_BUFF_SIZE = 256 := rfl
  have hbyte : ∀ k, base + BitVec.ofNat 64 (k / 8 * 8) + BitVec.ofNat 64 (k % 8) =
      base + BitVec.ofNat 64 k := fun k => by
    rw [BitVec.add_assoc, ← BitVec.ofNat_add, Nat.div_add_mod' k 8]
  constructor
  · intro h
    refine ⟨fun k hk hnul => ?_, fun m hm hnul hzero k hmk hk => ?_⟩
    · have hword := h (k / 8) (Nat.zero_le _) (by omega) fun j hj => hnul j (by omega)
      rw [← hbyte]
      exact peekData_isSome_iff.mp hword (k % 8) (by omega)
    · have hword := h (m / 8) (Nat.zero_le _) (by omega) fun j hj => hnul j (by omega)
      have hdiv : k / 8 = m / 8 := by omega
      rw [← hbyte, hdiv]
      exact peekData_isSome_iff.mp hword (k % 8) (by omega)
  · rintro ⟨hname, hrest⟩ w - hw hnul
    refine peekData_isSome_iff.mpr fun j hj => ?_
    rw [BitVec.add_assoc, ← BitVec.ofNat_add]
    by_cases hbefore : NoNulBefore mem base (w * 8 + j)
    · exact hname _ (by omega) hbefore
    · -- The first NUL is in this word, and this byte follows it.
      simp only [NoNulBefore, not_forall, not_not] at hbefore
      obtain ⟨m, hm, hzero, hfirst⟩ : ∃ m < w * 8 + j,
          mem (base + BitVec.ofNat 64 m) = some 0 ∧ NoNulBefore mem base m := by
        classical
        have hex : ∃ m, m < w * 8 + j ∧ mem (base + BitVec.ofNat 64 m) = some 0 := by
          obtain ⟨m, hm, hzero⟩ := hbefore
          exact ⟨m, hm, hzero⟩
        obtain ⟨hlt, hzero⟩ := Nat.find_spec hex
        exact ⟨Nat.find hex, hlt, hzero, fun i hi hi0 => Nat.find_min hex hi ⟨by omega, hi0⟩⟩
      have hge : w * 8 ≤ m := by
        by_contra hlt
        exact hnul m (by omega) hzero
      exact hrest m (by omega) hfirst hzero _ hm (by omega)

/-- The loop writes inside the buffer only. -/
theorem readStringLoop_inside {mem : Memory} {base : CLong} {n i : ℕ} {dest : ℕ → Byte}
    (hn : (i + n) * 8 = FILENAME_BUFF_SIZE) {k : ℕ} (hk : FILENAME_BUFF_SIZE ≤ k) :
    (readStringLoop mem base FILENAME_BUFF_SIZE n i dest).2 k = dest k := by
  have hsize : FILENAME_BUFF_SIZE = 256 := rfl
  induction n generalizing i dest with
  | zero => exact if_neg (by omega)
  | succ n ih =>
      rw [readStringLoop]
      cases peekData mem (base + BitVec.ofNat 64 (i * 8)) with
      | none => rfl
      | some data =>
          have hword : memcpyWord dest (i * 8) data k = dest k :=
            memcpyWord_of_notMem (by omega)
          simp only
          split_ifs
          · exact hword
          · exact (ih (by omega)).trans hword

/-- **What `read_string` is to do** with a buffer of 256 bytes: read the name, cut to 255
bytes, if it can be read; return -1 if it cannot; and write inside the buffer only. -/
structure ReadsName (mem : Memory) (base : CLong) (dest : ℕ → Byte) (r : CInt × (ℕ → Byte)) :
    Prop where
  readable : NameReadable mem base → r.1 = 0 ∧ bufferString r.2 = pathAt mem base
  unreadable : ¬NameReadable mem base → r.1 = -1
  inside : ∀ k, FILENAME_BUFF_SIZE ≤ k → r.2 k = dest k

/-- **`read_string` reads every name that can be read, if and only if** what follows a
name in its last word can be read too. -/
theorem readString_readsName_iff (mem : Memory) (base : CLong) (dest : ℕ → Byte) :
    ReadsName mem base dest (readString mem base dest FILENAME_BUFF_SIZE) ↔
      (NameReadable mem base → RestReadable mem base) := by
  have hresult :
      (readString mem base dest FILENAME_BUFF_SIZE).1 = 0 ∧ WordsReadable mem base 0 ∨
        (readString mem base dest FILENAME_BUFF_SIZE).1 = -1 ∧ ¬WordsReadable mem base 0 :=
    readStringLoop_result (i := 0) (n := 32) rfl (fun k hk => absurd hk (by omega))
      fun j hj => absurd hj (by omega)
  rw [wordsReadable_iff] at hresult
  have hinside : ∀ k, FILENAME_BUFF_SIZE ≤ k →
      (readString mem base dest FILENAME_BUFF_SIZE).2 k = dest k := fun k hk =>
    readStringLoop_inside (i := 0) (n := 32) rfl hk
  have hne : (0 : CInt) ≠ -1 := by decide
  constructor
  · intro h hname
    rcases hresult with ⟨-, -, hrest⟩ | ⟨hfail, -⟩
    · exact hrest
    · exact absurd ((h.readable hname).1.symm.trans hfail) hne
  · intro h
    refine ⟨fun hname => ?_, fun hname => ?_, hinside⟩
    · rcases hresult with ⟨hzero, -⟩ | ⟨-, hnot⟩
      · exact ⟨hzero, readString_eq (Prod.ext hzero rfl)⟩
      · exact absurd ⟨hname, h hname⟩ hnot
    · rcases hresult with ⟨-, hname', -⟩ | ⟨hfail, -⟩
      · exact absurd hname' hname
      · exact hfail

/-- Memory that ends at `0x1000`, with a NUL at its end. -/
def nulAtEnd : Memory := fun a =>
  if a < 0xfff then some 0x61 else if a = 0xfff then some 0 else none

/-- **The name `aa` at the end of the memory** can be read, and `read_string` fails. -/
theorem name_at_end_not_read :
    NameReadable nulAtEnd 0xffd ∧ pathAt nulAtEnd 0xffd = cstr "aa" ∧
      (readString nulAtEnd 0xffd (fun _ => 0) FILENAME_BUFF_SIZE).1 = -1 ∧
      ¬ReadsName nulAtEnd 0xffd (fun _ => 0)
        (readString nulAtEnd 0xffd (fun _ => 0) FILENAME_BUFF_SIZE) := by
  have hfail : (readString nulAtEnd 0xffd (fun _ => 0) FILENAME_BUFF_SIZE).1 = -1 := by decide
  have hname : NameReadable nulAtEnd 0xffd := by
    intro k _ hnul
    have hk : k ≤ 2 := by
      by_contra hgt
      exact hnul 2 (by omega) (by decide)
    match k, hk with
    | 0, _ | 1, _ | 2, _ => decide
  refine ⟨hname, by decide, hfail, fun h => ?_⟩
  exact absurd ((h.readable hname).1.symm.trans hfail) (by decide)

end Iotrace
