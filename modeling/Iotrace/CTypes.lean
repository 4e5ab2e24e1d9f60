/-
# C integers, strings and the memory of a tracee

iotrace runs on 64-bit Linux: `int` has 32 bits, `long`, `ssize_t`, `unsigned
long long` and pointers have 64, all little-endian and in two's complement.  A C
string is the list of its bytes before the NUL, and the memory of a tracee is a
partial map from addresses to bytes.

`PTRACE_PEEKDATA` reads whole words: it returns the eight bytes from the given
address on and fails if any of them is unmapped (`peekData`), also where the
caller needs an `int` of four bytes only (`intAt`).
-/

import Mathlib.Data.BitVec
import Mathlib.Tactic.NormNum

namespace Iotrace

/-- A byte (`char`). -/
abbrev Byte := BitVec 8

/-- `int`, also `pid_t`. -/
abbrev CInt := BitVec 32

/-- `long`, also `ssize_t`, a register and an address of the tracee. -/
abbrev CLong := BitVec 64

/-- `unsigned long long`. -/
abbrev CULongLong := BitVec 64

/-- The bytes of a C string before its NUL. -/
abbrev CString := List Byte

/-- The bytes of a string literal of the source. -/
def cstr (s : String) : CString := s.toList.map fun c => BitVec.ofNat 8 c.toNat

/-- The conversion of a `long` to `int`: the low 32 bits. -/
def toCInt (x : CLong) : CInt := x.setWidth 32

/-- The memory of a tracee: the byte at each mapped address. -/
abbrev Memory := CLong → Option Byte

/-- The `n` bytes from address `a` on, if all of them are mapped. -/
def bytesAt (mem : Memory) (a : CLong) : ℕ → Option (List Byte)
  | 0 => some []
  | n + 1 => (mem a).bind fun b => (bytesAt mem (a + 1) n).map (b :: ·)

/-- The number whose bytes are `l`, the least significant first. -/
def ofBytes : List Byte → ℕ
  | [] => 0
  | b :: l => b.toNat + 256 * ofBytes l

/-- `ptrace(PTRACE_PEEKDATA, tracee, a, NULL)`: the word of eight bytes at `a`. -/
def peekData (mem : Memory) (a : CLong) : Option CLong :=
  (bytesAt mem a 8).map fun l => BitVec.ofNat 64 (ofBytes l)

/-- The `int` that the tracee and the kernel find at address `a`. -/
def intAt (mem : Memory) (a : CLong) : Option CInt :=
  (bytesAt mem a 4).map fun l => BitVec.ofNat 32 (ofBytes l)

/-- What an unchecked `PTRACE_PEEKDATA` gives: the word, or `-1` where it failed. -/
def peekDataUnchecked (mem : Memory) (a : CLong) : CLong := (peekData mem a).getD (-1)

/-- Byte `j` of a word as it lies in memory. -/
def byteOf (data : CLong) (j : ℕ) : Byte := (data >>> (8 * j)).setWidth 8

theorem add_one_add_ofNat (a : CLong) (i : ℕ) :
    a + 1 + BitVec.ofNat 64 i = a + BitVec.ofNat 64 (i + 1) := by
  rw [BitVec.add_assoc, BitVec.ofNat_add, BitVec.add_comm (BitVec.ofNat 64 i)]
  rfl

/-- `bytesAt` reads `n` bytes, the `i`-th of them at `a + i`. -/
theorem bytesAt_eq_some_iff {mem : Memory} {a : CLong} {n : ℕ} {l : List Byte} :
    bytesAt mem a n = some l ↔
      l.length = n ∧ ∀ i < n, mem (a + BitVec.ofNat 64 i) = l[i]? := by
  induction n generalizing a l with
  | zero =>
      rw [bytesAt, Option.some.injEq, List.length_eq_zero_iff]
      exact ⟨fun h => ⟨h.symm, fun i hi => absurd hi (Nat.not_lt_zero i)⟩, fun h => h.1.symm⟩
  | succ n ih =>
      simp only [bytesAt, Option.bind_eq_some_iff, Option.map_eq_some_iff, ih]
      constructor
      · rintro ⟨b, hb, l, ⟨hlen, hmem⟩, rfl⟩
        refine ⟨by rw [List.length_cons, hlen], fun i hi => ?_⟩
        cases i with
        | zero => simpa using hb
        | succ i =>
            rw [← add_one_add_ofNat, hmem i (by omega), List.getElem?_cons_succ]
      · rintro ⟨hlen, hmem⟩
        match l, hlen with
        | b :: l, hlen =>
          refine ⟨b, by simpa using hmem 0 (by omega), l, ⟨by simpa using hlen, fun i hi => ?_⟩,
            rfl⟩
          rw [add_one_add_ofNat, hmem (i + 1) (by omega), List.getElem?_cons_succ]

/-- The first bytes of a number are a remainder. -/
theorem ofBytes_mod (l : List Byte) (n : ℕ) : ofBytes l % 256 ^ n = ofBytes (l.take n) := by
  induction l generalizing n with
  | nil => simp [ofBytes]
  | cons b l ih =>
      cases n with
      | zero => simp [ofBytes, Nat.mod_one]
      | succ n =>
          have hb : b.toNat < 256 := b.isLt
          rw [List.take_succ_cons, ofBytes, ofBytes, ← ih, Nat.pow_succ, Nat.mul_comm (256 ^ n),
            Nat.mod_mul, Nat.add_mul_mod_self_left, Nat.mod_eq_of_lt hb,
            Nat.add_mul_div_left _ _ (by omega), Nat.div_eq_of_lt hb, Nat.zero_add]

/-- The other bytes are a quotient. -/
theorem ofBytes_div (l : List Byte) (n : ℕ) : ofBytes l / 256 ^ n = ofBytes (l.drop n) := by
  induction l generalizing n with
  | nil => simp [ofBytes]
  | cons b l ih =>
      cases n with
      | zero => simp
      | succ n =>
          have hb : b.toNat < 256 := b.isLt
          rw [List.drop_succ_cons, ofBytes, ← ih, Nat.pow_succ, Nat.mul_comm (256 ^ n),
            ← Nat.div_div_eq_div_mul, Nat.add_mul_div_left _ _ (by omega), Nat.div_eq_of_lt hb,
            Nat.zero_add]

/-- Eight bytes are a number of 64 bits. -/
theorem ofBytes_lt {l : List Byte} (hlen : l.length = 8) : ofBytes l < 2 ^ 64 := by
  have hmod := ofBytes_mod l 8
  rw [← hlen, List.take_length, hlen] at hmod
  rw [← hmod]
  exact Nat.mod_lt _ (by norm_num)

/-- Byte `j` of the word that eight bytes are is the `j`-th of them. -/
theorem byteOf_ofBytes {l : List Byte} (hlen : l.length = 8) {j : ℕ} (hj : j < 8) :
    l[j]? = some (byteOf (BitVec.ofNat 64 (ofBytes l)) j) := by
  have hj : j < l.length := by omega
  rw [List.getElem?_eq_getElem hj]
  refine congrArg some (BitVec.eq_of_toNat_eq ?_)
  have hpow : 2 ^ (8 * j) = 256 ^ j := by rw [Nat.pow_mul]
  rw [byteOf, BitVec.toNat_setWidth, BitVec.toNat_ushiftRight, BitVec.toNat_ofNat,
    Nat.mod_eq_of_lt (ofBytes_lt hlen), Nat.shiftRight_eq_div_pow, hpow, ofBytes_div,
    List.drop_eq_getElem_cons hj, ofBytes]
  have hb := l[j].isLt
  omega

/-- **The bytes of a word** that `PTRACE_PEEKDATA` returns are those of the memory. -/
theorem byteOf_peekData {mem : Memory} {a data : CLong} (h : peekData mem a = some data) {j : ℕ}
    (hj : j < 8) : mem (a + BitVec.ofNat 64 j) = some (byteOf data j) := by
  obtain ⟨l, hl, rfl⟩ := Option.map_eq_some_iff.mp h
  obtain ⟨hlen, hmem⟩ := bytesAt_eq_some_iff.mp hl
  rw [hmem j hj, byteOf_ofBytes hlen hj]

/-- **The `int` in a word:** where the eight bytes from `a` on are mapped, the
low half of the word is the `int` at `a`. -/
theorem intAt_of_peekData {mem : Memory} {a data : CLong} (h : peekData mem a = some data) :
    intAt mem a = some (toCInt data) := by
  obtain ⟨l, hl, rfl⟩ := Option.map_eq_some_iff.mp h
  obtain ⟨hlen, hmem⟩ := bytesAt_eq_some_iff.mp hl
  have hfour : bytesAt mem a 4 = some (l.take 4) := by
    refine bytesAt_eq_some_iff.mpr ⟨by rw [List.length_take]; omega, fun i hi => ?_⟩
    rw [hmem i (by omega), List.getElem?_take_of_lt hi]
  have hlow := ofBytes_mod l 4
  rw [intAt, hfour, Option.map_some]
  refine congrArg some (BitVec.eq_of_toNat_eq ?_)
  rw [toCInt, BitVec.toNat_setWidth, BitVec.toNat_ofNat, BitVec.toNat_ofNat, ← hlow]
  omega

/-- Two `int`s in a row are a word that `PTRACE_PEEKDATA` can read. -/
theorem peekData_of_intAt {mem : Memory} {a : CLong} {u v : CInt} (hu : intAt mem a = some u)
    (hv : intAt mem (a + 4) = some v) : ∃ data, peekData mem a = some data := by
  obtain ⟨l, hl, -⟩ := Option.map_eq_some_iff.mp hu
  obtain ⟨l', hl', -⟩ := Option.map_eq_some_iff.mp hv
  obtain ⟨hlen, hmem⟩ := bytesAt_eq_some_iff.mp hl
  obtain ⟨hlen', hmem'⟩ := bytesAt_eq_some_iff.mp hl'
  refine ⟨_, Option.map_eq_some_iff.mpr
    ⟨l ++ l', bytesAt_eq_some_iff.mpr ⟨?_, fun i hi => ?_⟩, rfl⟩⟩
  · rw [List.length_append, hlen, hlen']
  · rcases Nat.lt_or_ge i 4 with h | h
    · rw [List.getElem?_append_left (by omega), hmem i h]
    · rw [List.getElem?_append_right (by omega), hlen, ← hmem' (i - 4) (by omega), BitVec.add_assoc]
      congr 2
      refine BitVec.eq_of_toNat_eq ?_
      simp
      omega

/-- An `int` fetched as a word that can be read is that `int`. -/
theorem toCInt_peekDataUnchecked {mem : Memory} {a data : CLong} {v : CInt}
    (h : peekData mem a = some data) (hv : intAt mem a = some v) :
    toCInt (peekDataUnchecked mem a) = v := by
  have hdata := intAt_of_peekData h
  rw [hv] at hdata
  rw [peekDataUnchecked, h, Option.getD_some, Option.some.inj hdata]

/-- An `int` fetched as a word that cannot be read is `-1`. -/
theorem toCInt_peekDataUnchecked_none {mem : Memory} {a : CLong} (h : peekData mem a = none) :
    toCInt (peekDataUnchecked mem a) = -1 := by
  rw [peekDataUnchecked, h]
  decide

end Iotrace
