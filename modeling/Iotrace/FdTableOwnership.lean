/-
# Who owns the blocks of the descriptor tables

The invariant behind the memory of `src/fd_table.c`, for any number of tables in one heap:
every block that is in use belongs to one entry of one table, as its key, its value or its
name (`Stored`), and a table in the code has the addresses of the entries whose names and
flags the table of `Iotrace.FdTable` has (`Row`).

An insertion, a removal and a change of a flag each change one entry and nothing of the
others.  An insertion reads the name before it frees anything, so that the name may lie
in the entry that it replaces (`Stored.insert`).
-/

import Iotrace.FdTableBlocks
import Iotrace.Library.Ownership

namespace Iotrace

namespace Malloc

open Ownership FiniteMap

variable {κ : Type}

/-- An entry with its three blocks. -/
structure Cells where
  key : ℕ
  value : ℕ
  chars : ℕ
  fd : CInt
  filename : CString
  cloexec : Bool

namespace Cells

/-- The blocks of an entry, if there is one. -/
def addresses : Option Cells → Set ℕ
  | none => ∅
  | some c => {a | a = c.key ∨ a = c.value ∨ a = c.chars}

/-- The blocks are there, and hold what they are for. -/
def Held (m : Arena Block) : Option Cells → Prop
  | none => True
  | some c => m.cell c.key = some (.fd c.fd) ∧
      m.cell c.value = some (.entry c.chars c.cloexec) ∧ m.cell c.chars = some (.chars c.filename)

theorem Held.isSome {m : Arena Block} {c : Option Cells} (h : Held m c) {a : ℕ}
    (ha : a ∈ addresses c) : (m.cell a).isSome := by
  cases c with
  | none => exact ha.elim
  | some c =>
      obtain ⟨hkey, hvalue, hchars⟩ := h
      rcases ha with rfl | rfl | rfl
      · rw [hkey]
        rfl
      · rw [hvalue]
        rfl
      · rw [hchars]
        rfl

/-- Nothing but the blocks themselves matters to an entry. -/
theorem Held.congr {m m' : Arena Block} {c : Option Cells} (h : Held m c)
    (hsame : ∀ a ∈ addresses c, m'.cell a = m.cell a) : Held m' c := by
  cases c with
  | none => trivial
  | some c =>
      obtain ⟨hkey, hvalue, hchars⟩ := h
      refine ⟨?_, ?_, ?_⟩
      · rw [hsame c.key (Or.inl rfl), hkey]
      · rw [hsame c.value (Or.inr (Or.inl rfl)), hvalue]
      · rw [hsame c.chars (Or.inr (Or.inr rfl)), hchars]

end Cells

/-- Every block in use belongs to one entry of one table, which finds it there. -/
structure Stored (m : Arena Block) (cells : κ × CInt → Option Cells) : Prop where
  separated : Separated Cells.addresses Cells.Held m cells
  covered : Covered (fun m a => (Arena.cell m a).isSome) Cells.addresses m cells
  fd : ∀ x c, cells x = some c → c.fd = x.2

/-- What a table has in its entries: in the code the addresses, in the abstract the names
and flags. -/
structure Row (cells : κ × CInt → Option Cells) (i : κ) (table : HashTable) (t : FdTable) :
    Prop where
  pointers : ∀ fd, table.lookup fd = (cells (i, fd)).map fun c => (c.key, c.value)
  contents : ∀ fd, t.lookup fd = (cells (i, fd)).map fun c => ⟨c.filename, c.cloexec⟩

variable {m m' : Arena Block} {cells : κ × CInt → Option Cells}

theorem Stored.held (h : Stored m cells) {x : κ × CInt} {c : Cells} (hc : cells x = some c) :
    Cells.Held m (some c) := by
  rw [← hc]
  exact h.separated.ok x

section Update

variable [DecidableEq κ]

/-- **One entry changes,** with the blocks that it gains fresh ones, and those that it
loses freed. -/
theorem Stored.update (h : Stored m cells) {x : κ × CInt} {c : Option Cells}
    (hheld : Cells.Held m' c) (hfd : ∀ c', c = some c' → c'.fd = x.2)
    (hsame : ∀ y, y ≠ x → ∀ a ∈ Cells.addresses (cells y), m'.cell a = m.cell a)
    (howns : ∀ a ∈ Cells.addresses c, a ∈ Cells.addresses (cells x) ∨ m.cell a = none)
    (hcover : ∀ a, (m'.cell a).isSome →
      a ∈ Cells.addresses c ∨ (m.cell a).isSome ∧ a ∉ Cells.addresses (cells x)) :
    Stored m' (Function.update cells x c) where
  separated := by
    have hframe : ∀ (m m' : Arena Block) (c : Option Cells), Cells.Held m c →
        (∀ a ∈ Cells.addresses c, m'.cell a = m.cell a) → Cells.Held m' c :=
      fun _ _ _ hc => hc.congr
    refine h.separated.update hframe hheld hsame fun a ha => ?_
    rcases howns a ha with hx | hnone
    · exact Or.inl hx
    · refine Or.inr fun y hy => ?_
      have hsome := (h.separated.ok y).isSome hy
      rw [hnone] at hsome
      cases hsome
  covered := h.covered.update hcover
  fd y c' hc' := by
    rw [Function.update_apply] at hc'
    split_ifs at hc' with hy
    · rw [hy]
      exact hfd c' hc'
    · exact h.fd y c' hc'

end Update

/-! ### Insertion -/

/-- The heap after the allocations of `fd_table_insert_intern`. -/
def withEntry (m : Arena Block) (fd : CInt) (s : CString) (cloexec : Bool) : Arena Block :=
  (((m.alloc (.fd fd)).alloc (.entry 0 false)).alloc (.chars s)).write (m.next + 1)
    (.entry (m.next + 2) cloexec)

theorem withEntry_cell (m : Arena Block) (fd : CInt) (s : CString) (cloexec : Bool) (a : ℕ) :
    (withEntry m fd s cloexec).cell a =
      if a = m.next then some (.fd fd) else if a = m.next + 1 then
        some (.entry (m.next + 2) cloexec)
      else if a = m.next + 2 then some (.chars s) else m.cell a := by
  simp only [withEntry, Arena.write, Arena.alloc]
  grind

theorem readChars_alloc {p : CharPtr} {s : CString} (h : readChars m p = .ok s) (b : Block) :
    readChars (m.alloc b) p = .ok s := by
  cases p with
  | elsewhere s' => exact h
  | block a =>
      cases hcell : m.cell a with
      | none =>
          simp only [readChars, hcell] at h
          cases h
      | some c =>
          simp only [readChars, Arena.alloc_cell_of_some hcell]
          simpa only [readChars, hcell] using h

theorem fdTableInsertIntern_eq {p : CharPtr} {s : CString} (h : readChars m p = .ok s)
    (table : HashTable) (fd : CInt) (cloexec : Bool) :
    fdTableInsertIntern m table fd p cloexec =
      gHashTableInsert (withEntry m fd s cloexec) table m.next (m.next + 1) := by
  have hread := readChars_alloc (readChars_alloc h (.fd fd)) (.entry 0 false)
  rw [fdTableInsertIntern]
  simp only [hread, ok_bind]
  rfl

theorem free_of_some {a : ℕ} {b : Block} (h : m.cell a = some b) : free m a = .ok (m.free a) := by
  rw [free, h]
  rfl

theorem readEntry_of_cell {a filename : ℕ} {cloexec : Bool}
    (h : m.cell a = some (.entry filename cloexec)) : readEntry m a = .ok (filename, cloexec) := by
  rw [readEntry, h]

/-- An entry is freed with its name. -/
theorem freeSingle_of_cell {a filename : ℕ} {cloexec : Bool} {s : CString}
    (hentry : m.cell a = some (.entry filename cloexec))
    (hchars : m.cell filename = some (.chars s)) :
    freeSingleFdTableEntry m a = .ok ((m.free filename).free a) := by
  have hne : a ≠ filename := by
    rintro rfl
    rw [hentry] at hchars
    cases hchars
  have hentry' : (m.free filename).cell a = some (.entry filename cloexec) := by
    rw [Arena.free_cell_ne m hne, hentry]
  rw [freeSingleFdTableEntry, readEntry_of_cell hentry, ok_bind]
  simp only [free_of_some hchars, ok_bind, free_of_some hentry']

section Rows

variable [DecidableEq κ] {i : κ} {table : HashTable} {t : FdTable} {fd : CInt}

theorem Row.insert (h : Row cells i table t) (fd : CInt) (c : Cells) :
    Row (Function.update cells (i, fd) (some c)) i (table.insert fd (c.key, c.value))
      (fdTableInsert t fd c.filename c.cloexec) where
  pointers x := by
    rw [lookup_insert_eq, Function.update_apply, h.pointers]
    by_cases hx : x = fd
    · rw [if_pos hx, if_pos (by rw [hx]), Option.map_some]
    · rw [if_neg hx, if_neg fun heq => hx (Prod.mk.inj heq).2]
  contents x := by
    rw [lookup_fdTableInsert, Function.update_apply, h.contents]
    by_cases hx : x = fd
    · rw [if_pos hx, if_pos (by rw [hx]), Option.map_some]
    · rw [if_neg hx, if_neg fun heq => hx (Prod.mk.inj heq).2]

theorem Row.erase (h : Row cells i table t) (fd : CInt) :
    Row (Function.update cells (i, fd) none) i (table.erase fd) (fdTableRemove t fd) where
  pointers x := by
    rw [lookup_erase_eq, Function.update_apply, h.pointers]
    by_cases hx : x = fd
    · rw [if_pos hx, if_pos (by rw [hx]), Option.map_none]
    · rw [if_neg hx, if_neg fun heq => hx (Prod.mk.inj heq).2]
  contents x := by
    rw [lookup_fdTableRemove, Function.update_apply, h.contents]
    by_cases hx : x = fd
    · rw [if_pos hx, if_pos (by rw [hx]), Option.map_none]
    · rw [if_neg hx, if_neg fun heq => hx (Prod.mk.inj heq).2]

omit [DecidableEq κ] in
/-- A table is not touched by changes of the others. -/
theorem Row.congr {cells' : κ × CInt → Option Cells} (h : Row cells i table t)
    (hsame : ∀ fd, cells' (i, fd) = cells (i, fd)) : Row cells' i table t :=
  ⟨fun fd => by rw [hsame, h.pointers], fun fd => by rw [hsame, h.contents]⟩

omit [DecidableEq κ] in
/-- What an entry has lies below what is allocated next. -/
theorem Stored.lt_next (h : Stored m cells) {x : κ × CInt} {a : ℕ}
    (ha : a ∈ Cells.addresses (cells x)) : a < m.next := by
  obtain ⟨b, hb⟩ := Option.isSome_iff_exists.mp ((h.separated.ok x).isSome ha)
  exact Arena.lt_next hb

/-- The three blocks of an entry that was not there. -/
theorem Stored.insert_new (h : Stored m cells) (hnone : cells (i, fd) = none) (s : CString)
    (cloexec : Bool) :
    Stored (withEntry m fd s cloexec) (Function.update cells (i, fd)
      (some ⟨m.next, m.next + 1, m.next + 2, fd, s, cloexec⟩)) := by
  have hcell := withEntry_cell m fd s cloexec
  refine h.update ⟨?_, ?_, ?_⟩ ?_ ?_ ?_ ?_
  · simp [hcell]
  · simp [hcell]
  · simp [hcell]
  · intro c' hc'
    obtain rfl := Option.some.inj hc'
    rfl
  · intro y _ a ha
    have hlt := h.lt_next ha
    rw [hcell, if_neg (by omega), if_neg (by omega), if_neg (by omega)]
  · rintro a (rfl | rfl | rfl)
    · exact Or.inr (m.fresh _ le_rfl)
    · exact Or.inr (m.fresh _ (Nat.le_add_right _ 1))
    · exact Or.inr (m.fresh _ (Nat.le_add_right _ 2))
  · intro a ha
    rw [hcell] at ha
    by_cases hnew : a = m.next ∨ a = m.next + 1 ∨ a = m.next + 2
    · exact Or.inl hnew
    · simp only [not_or] at hnew
      rw [if_neg hnew.1, if_neg hnew.2.1, if_neg hnew.2.2] at ha
      rw [hnone]
      exact Or.inr ⟨ha, id⟩

/-- The key of an entry that was there stays, the new one and the old value are freed. -/
theorem Stored.insert_old (h : Stored m cells) {c : Cells} (hold : cells (i, fd) = some c)
    (s : CString) (cloexec : Bool) :
    Stored ((((withEntry m fd s cloexec).free m.next).free c.chars).free c.value)
      (Function.update cells (i, fd)
        (some ⟨c.key, m.next + 1, m.next + 2, fd, s, cloexec⟩)) := by
  obtain ⟨hkey, hvalue, hchars⟩ := h.held hold
  have hfd : c.fd = fd := h.fd _ c hold
  have hlt : ∀ a ∈ Cells.addresses (some c), a < m.next := by
    rw [← hold]
    exact fun a ha => h.lt_next ha
  have hkeylt := hlt c.key (Or.inl rfl)
  have hvaluelt := hlt c.value (Or.inr (Or.inl rfl))
  have hcharslt := hlt c.chars (Or.inr (Or.inr rfl))
  have hkv : c.key ≠ c.value := by
    intro heq
    rw [heq, hvalue] at hkey
    cases hkey
  have hkc : c.key ≠ c.chars := by
    intro heq
    rw [heq, hchars] at hkey
    cases hkey
  have hcell : ∀ a, ((((withEntry m fd s cloexec).free m.next).free c.chars).free c.value).cell a =
      if a = c.value ∨ a = c.chars ∨ a = m.next then none
      else if a = m.next + 1 then some (.entry (m.next + 2) cloexec)
      else if a = m.next + 2 then some (.chars s) else m.cell a := by
    intro a
    simp only [Arena.free, withEntry_cell]
    grind
  refine h.update ⟨?_, ?_, ?_⟩ ?_ ?_ ?_ ?_
  · rw [hcell, if_neg (by grind), if_neg (by grind), if_neg (by grind), hkey, hfd]
  · rw [hcell, if_neg (by grind), if_pos rfl]
  · rw [hcell, if_neg (by grind), if_neg (by grind), if_pos rfl]
  · intro c' hc'
    obtain rfl := Option.some.inj hc'
    rfl
  · intro y hy a ha
    have halt := h.lt_next ha
    have hnot := h.separated.not_mem (Ne.symm hy) ha
    rw [hold] at hnot
    have hnotv : a ≠ c.value := fun heq => hnot (Or.inr (Or.inl heq))
    have hnotc : a ≠ c.chars := fun heq => hnot (Or.inr (Or.inr heq))
    rw [hcell, if_neg (by grind), if_neg (by omega), if_neg (by omega)]
  · rw [hold]
    rintro a (rfl | rfl | rfl)
    · exact Or.inl (Or.inl rfl)
    · exact Or.inr (m.fresh _ (Nat.le_add_right _ 1))
    · exact Or.inr (m.fresh _ (Nat.le_add_right _ 2))
  · intro a ha
    rw [hold]
    rw [hcell] at ha
    by_cases hfreed : a = c.value ∨ a = c.chars ∨ a = m.next
    · rw [if_pos hfreed] at ha
      cases ha
    rw [if_neg hfreed] at ha
    by_cases hnew : a = c.key ∨ a = m.next + 1 ∨ a = m.next + 2
    · exact Or.inl hnew
    · simp only [not_or] at hnew hfreed
      rw [if_neg hnew.2.1, if_neg hnew.2.2] at ha
      refine Or.inr ⟨ha, ?_⟩
      rintro (heq | heq | heq)
      · exact hnew.1 heq
      · exact hfreed.1 heq
      · exact hfreed.2.1 heq

/-- **An entry is inserted,** or replaced with all its blocks but the key. -/
theorem Stored.insert (h : Stored m cells) (hrow : Row cells i table t) {p : CharPtr}
    {s : CString} (hread : readChars m p = .ok s) (fd : CInt) (cloexec : Bool) :
    ∃ m' table' c, fdTableInsertIntern m table fd p cloexec = .ok (m', table') ∧
      Stored m' (Function.update cells (i, fd) (some c)) ∧
      Row (Function.update cells (i, fd) (some c)) i table' (fdTableInsert t fd s cloexec) := by
  have hcell := withEntry_cell m fd s cloexec
  have hnew : (withEntry m fd s cloexec).cell m.next = some (.fd fd) := by
    rw [hcell, if_pos rfl]
  rw [fdTableInsertIntern_eq hread, gHashTableInsert, hnew]
  have hlook := hrow.pointers fd
  cases hold : cells (i, fd) with
  | none =>
      rw [hold, Option.map_none] at hlook
      simp only [hlook]
      exact ⟨_, _, _, rfl, h.insert_new hold s cloexec,
        hrow.insert fd ⟨m.next, m.next + 1, m.next + 2, fd, s, cloexec⟩⟩
  | some c =>
      rw [hold, Option.map_some] at hlook
      obtain ⟨-, hvalue, hchars⟩ := h.held hold
      have hlt : ∀ a ∈ Cells.addresses (some c), a < m.next := by
        rw [← hold]
        exact fun a ha => h.lt_next ha
      have hvaluelt := hlt c.value (Or.inr (Or.inl rfl))
      have hcharslt := hlt c.chars (Or.inr (Or.inr rfl))
      have hvalue' : ((withEntry m fd s cloexec).free m.next).cell c.value =
          some (.entry c.chars c.cloexec) := by
        rw [Arena.free_cell_ne _ (by omega), hcell, if_neg (by omega), if_neg (by omega),
          if_neg (by omega), hvalue]
      have hchars' : ((withEntry m fd s cloexec).free m.next).cell c.chars =
          some (.chars c.filename) := by
        rw [Arena.free_cell_ne _ (by omega), hcell, if_neg (by omega), if_neg (by omega),
          if_neg (by omega), hchars]
      simp only [hlook, free_of_some hnew, ok_bind, freeSingle_of_cell hvalue' hchars']
      exact ⟨_, _, _, rfl, h.insert_old hold s cloexec,
        hrow.insert fd ⟨c.key, m.next + 1, m.next + 2, fd, s, cloexec⟩⟩

/-! ### Removal and flags -/

/-- The three blocks of an entry are freed. -/
theorem Stored.free_cells (h : Stored m cells) {c : Cells} (hold : cells (i, fd) = some c) :
    free m c.key = .ok (m.free c.key) ∧
      freeSingleFdTableEntry (m.free c.key) c.value =
        .ok (((m.free c.key).free c.chars).free c.value) ∧
      Stored (((m.free c.key).free c.chars).free c.value)
        (Function.update cells (i, fd) none) := by
  obtain ⟨hkey, hvalue, hchars⟩ := h.held hold
  have hvk : c.value ≠ c.key := by
    intro heq
    rw [heq, hkey] at hvalue
    cases hvalue
  have hck : c.chars ≠ c.key := by
    intro heq
    rw [heq, hkey] at hchars
    cases hchars
  have hvalue' : (m.free c.key).cell c.value = some (.entry c.chars c.cloexec) := by
    rw [Arena.free_cell_ne m hvk, hvalue]
  have hchars' : (m.free c.key).cell c.chars = some (.chars c.filename) := by
    rw [Arena.free_cell_ne m hck, hchars]
  have hcell : ∀ a, (((m.free c.key).free c.chars).free c.value).cell a =
      if a = c.key ∨ a = c.value ∨ a = c.chars then none else m.cell a := by
    intro a
    simp only [Arena.free]
    grind
  refine ⟨free_of_some hkey, freeSingle_of_cell hvalue' hchars', ?_⟩
  refine h.update trivial (fun _ hnone => by cases hnone) ?_ ?_ ?_
  · intro y hy a ha
    have hnot := h.separated.not_mem (Ne.symm hy) ha
    rw [hold] at hnot
    rw [hcell]
    exact if_neg hnot
  · exact fun a ha => ha.elim
  · intro a ha
    rw [hold]
    rw [hcell] at ha
    by_cases hfreed : a = c.key ∨ a = c.value ∨ a = c.chars
    · rw [if_pos hfreed] at ha
      cases ha
    · rw [if_neg hfreed] at ha
      exact Or.inr ⟨ha, hfreed⟩

/-- **An entry is removed** with all its blocks. -/
theorem Stored.remove (h : Stored m cells) (hrow : Row cells i table t) (fd : CInt) :
    ∃ m' table', gHashTableRemove m table fd = .ok (m', table') ∧
      Stored m' (Function.update cells (i, fd) none) ∧
      Row (Function.update cells (i, fd) none) i table' (fdTableRemove t fd) ∧
      table' = table.erase fd := by
  have hlook := hrow.pointers fd
  rw [gHashTableRemove]
  cases hold : cells (i, fd) with
  | none =>
      rw [hold, Option.map_none] at hlook
      have herase : table.erase fd = table := erase_of_lookup_none hlook
      have hcells : Function.update cells (i, fd) none = cells := by
        rw [← hold, Function.update_eq_self]
      simp only [hlook]
      refine ⟨m, table, rfl, by rwa [hcells], ?_, herase.symm⟩
      have hrow' := hrow.erase fd
      rwa [herase] at hrow'
  | some c =>
      rw [hold, Option.map_some] at hlook
      obtain ⟨hfree, hfree', hstored⟩ := h.free_cells hold
      simp only [hlook, hfree, ok_bind, hfree']
      exact ⟨_, _, rfl, hstored, hrow.erase fd, rfl⟩

/-- **A flag is set** in place. -/
theorem Stored.setCloexec (h : Stored m cells) (hrow : Row cells i table t) {c : Cells}
    (hold : cells (i, fd) = some c) (cloexec : Bool) :
    ∃ m', fdTableSetCloexec m table fd cloexec = .ok (m', table) ∧
      Stored m' (Function.update cells (i, fd) (some { c with cloexec })) ∧
      Row (Function.update cells (i, fd) (some { c with cloexec })) i table
        (t.insert fd ⟨c.filename, cloexec⟩) := by
  obtain ⟨hkey, hvalue, hchars⟩ := h.held hold
  have hlook := hrow.pointers fd
  rw [hold, Option.map_some] at hlook
  have hkv : c.key ≠ c.value := by
    intro heq
    rw [heq, hvalue] at hkey
    cases hkey
  have hcv : c.chars ≠ c.value := by
    intro heq
    rw [heq, hvalue] at hchars
    cases hchars
  have hsame : ∀ a, a ≠ c.value →
      (m.write c.value (.entry c.chars cloexec)).cell a = m.cell a := fun a ha =>
    Arena.write_cell_ne m _ ha
  refine ⟨m.write c.value (.entry c.chars cloexec), ?_, ?_, ?_⟩
  · simp only [fdTableSetCloexec, hlook, readEntry_of_cell hvalue, ok_bind]
  · refine h.update ⟨?_, Arena.write_cell_self hvalue, ?_⟩ ?_ ?_ ?_ ?_
    · rw [hsame _ hkv, hkey]
    · rw [hsame _ hcv, hchars]
    · intro c' hc'
      obtain rfl := Option.some.inj hc'
      exact h.fd _ c hold
    · intro y hy a ha
      have hnot := h.separated.not_mem (Ne.symm hy) ha
      rw [hold] at hnot
      exact hsame a fun heq => hnot (Or.inr (Or.inl heq))
    · rw [hold]
      exact fun a ha => Or.inl ha
    · intro a ha
      rw [Arena.write_cell_isSome] at ha
      rw [hold]
      by_cases hmem : a ∈ Cells.addresses (some c)
      · exact Or.inl hmem
      · exact Or.inr ⟨ha, hmem⟩
  · have hrow' := hrow.insert fd { c with cloexec }
    have htable : table.insert fd (c.key, c.value) = table := insert_eq_self_iff.mpr hlook
    rwa [htable] at hrow'

end Rows

end Malloc

end Iotrace
