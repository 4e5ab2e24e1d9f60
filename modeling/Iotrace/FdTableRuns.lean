/-
# Descriptor tables in memory

Runs of the functions of `src/fd_table.c` on any number of tables that lie in one heap.
The functions with a loop change one entry after the other, in whatever order the
iterator visits them.  `fd_tables_refine` is the result: a run in memory gives, or fails
with, what the run of `Iotrace.FdTable` on the contents gives or fails with.  The latter
has no addresses, so nothing is used or freed after its release.  When all tables have been
freed, so have been all blocks (`fd_tables_leak_nothing`).  Both are instances of what holds
of any tables in one heap (`TableStore`), for the blocks of these tables (`storage`).
-/

import Iotrace.FdTableOwnership
import Iotrace.Library.TableStore

namespace Iotrace

namespace Malloc

open Ownership FiniteMap Runs Outcome TableStore TableStore.Storage

variable {κ : Type} [DecidableEq κ] {m : Arena Block} {cells : κ × CInt → Option Cells}
  {i j : κ} {table : HashTable} {t : FdTable}

/-! ### The loops -/

omit [DecidableEq κ] in
/-- What is visited is an entry with its blocks. -/
theorem Row.visit (hrow : Row cells i table t) {e : Visit} (he : table.lookup e.1 = some e.2) :
    ∃ c, cells (i, e.1) = some c ∧ e.2 = (c.key, c.value) ∧
      t.lookup e.1 = some ⟨c.filename, c.cloexec⟩ := by
  rw [hrow.pointers] at he
  obtain ⟨c, hc, heq⟩ := Option.map_eq_some_iff.mp he
  exact ⟨c, hc, heq.symm, by rw [hrow.contents, hc, Option.map_some]⟩

/-- **`fd_table_remove_cloexec`,** for the entries that are visited. -/
theorem Stored.removeCloexec (h : Stored m cells) (hrow : Row cells i table t)
    {visits : List Visit} (hvisits : Visits table visits) :
    ∃ m' table' cells' t', fdTableRemoveCloexec m table visits = .ok (m', table') ∧
      Stored m' cells' ∧ Row cells' i table' t' ∧
      (∀ x, x.1 ≠ i → cells' x = cells x) ∧
      ∀ fd, t'.lookup fd = if fd ∈ visits.keys then
        (t.lookup fd).filter fun entry => !entry.cloexec else t.lookup fd := by
  induction visits generalizing m cells table t with
  | nil => exact ⟨m, table, cells, t, rfl, h, hrow, fun _ _ => rfl, fun fd => (if_neg nofun).symm⟩
  | cons e visits ih =>
      obtain ⟨c, hc, heq, ht⟩ := hrow.visit (hvisits.here e List.mem_cons_self)
      have hread : readEntry m e.2.2 = .ok (c.chars, c.cloexec) := by
        rw [heq]
        exact readEntry_of_cell (h.held hc).2.1
      have hnot := hvisits.head_notMem
      cases hcloexec : c.cloexec with
      | true =>
          obtain ⟨m₁, table₁, hremove, h₁, hrow₁, rfl⟩ := h.remove hrow e.1
          obtain ⟨m', table', cells', t', hrun, h', hrow', hothers, hlook⟩ :=
            ih h₁ hrow₁ hvisits.erase
          have hstep : removeIfCloexec (m, table) e = .ok (m₁, table.erase e.1) := by
            simp only [removeIfCloexec, hread, ok_bind, hcloexec, if_true, hremove]
          refine ⟨m', table', cells', t', foldlM_cons_ok.mpr ⟨_, hstep, hrun⟩, h', hrow',
            fun x hx => ?_, fun fd => ?_⟩
          · rw [hothers x hx, Function.update_of_ne fun heq => hx (by rw [heq])]
          · rw [hlook, lookup_fdTableRemove, List.keys_cons]
            by_cases hfd : fd = e.1
            · rw [hfd, if_neg hnot, if_pos rfl, if_pos List.mem_cons_self, ht, hcloexec]
              rfl
            · simp only [List.mem_cons, hfd, false_or, if_false]
      | false =>
          obtain ⟨m', table', cells', t', hrun, h', hrow', hothers, hlook⟩ :=
            ih h hrow hvisits.tail
          have hstep : removeIfCloexec (m, table) e = .ok (m, table) := by
            simp only [removeIfCloexec, hread, ok_bind, hcloexec, Bool.false_eq_true, if_false]
          refine ⟨m', table', cells', t', foldlM_cons_ok.mpr ⟨_, hstep, hrun⟩, h', hrow', hothers,
            fun fd => ?_⟩
          rw [hlook, List.keys_cons]
          by_cases hfd : fd = e.1
          · rw [hfd, if_neg hnot, if_pos List.mem_cons_self, ht, hcloexec]
            rfl
          · simp only [List.mem_cons, hfd, false_or]

/-- **`fd_table_deep_copy`,** for the entries that are visited: another table gets them, with
blocks of its own. -/
theorem Stored.copy (h : Stored m cells) (hrow : Row cells i table t) (hne : j ≠ i)
    {copy : HashTable} {t₁ : FdTable} (hcopy : Row cells j copy t₁) {visits : List Visit}
    (hvisits : Visits table visits) :
    ∃ m' copy' cells' t', visits.foldlM insertCopy (m, copy) = .ok (m', copy') ∧
      Stored m' cells' ∧ Row cells' j copy' t' ∧
      (∀ x, x.1 ≠ j → cells' x = cells x) ∧
      ∀ fd, t'.lookup fd = if fd ∈ visits.keys then t.lookup fd else t₁.lookup fd := by
  induction visits generalizing m cells copy t₁ with
  | nil =>
      exact ⟨m, copy, cells, t₁, rfl, h, hcopy, fun _ _ => rfl, fun fd => (if_neg nofun).symm⟩
  | cons e visits ih =>
      obtain ⟨c, hc, heq, ht⟩ := hrow.visit (hvisits.here e List.mem_cons_self)
      obtain ⟨hkey, hvalue, hchars⟩ := h.held hc
      have hread : readChars m (.block c.chars) = .ok c.filename := by
        rw [readChars, hchars]
      obtain ⟨m₁, copy₁, c₁, hinsert, h₁, hcopy₁⟩ := h.insert hcopy hread c.fd c.cloexec
      have hrow₁ : Row (Function.update cells (j, c.fd) (some c₁)) i table t :=
        hrow.congr fun fd => Function.update_of_ne (fun heq => hne (Prod.mk.inj heq).1.symm) _ _
      obtain ⟨m', copy', cells', t', hrun, h', hcopy', hothers, hlook⟩ :=
        ih h₁ hrow₁ hcopy₁ hvisits.tail
      have hstep : insertCopy (m, copy) e = .ok (m₁, copy₁) := by
        simp only [insertCopy, heq, hkey, readEntry_of_cell hvalue, ok_bind, hinsert]
      refine ⟨m', copy', cells', t', foldlM_cons_ok.mpr ⟨_, hstep, hrun⟩, h', hcopy',
        fun x hx => ?_, fun fd => ?_⟩
      · rw [hothers x hx, Function.update_of_ne fun heq => hx (by rw [heq])]
      · have hfd₀ : c.fd = e.1 := h.fd _ c hc
        rw [hlook, lookup_fdTableInsert, List.keys_cons, hfd₀]
        by_cases hfd : fd = e.1
        · rw [hfd, if_neg hvisits.head_notMem, if_pos rfl, if_pos List.mem_cons_self, ht]
        · simp only [List.mem_cons, hfd, false_or, if_false]

/-- **`g_hash_table_destroy`,** for the entries that are visited. -/
theorem Stored.free (h : Stored m cells) (hrow : Row cells i table t) {visits : List Visit}
    (hvisits : Visits table visits) :
    ∃ m' cells', fdTableFree m visits = .ok m' ∧ Stored m' cells' ∧
      (∀ x, x.1 ≠ i → cells' x = cells x) ∧
      ∀ fd, cells' (i, fd) = if fd ∈ visits.keys then none else cells (i, fd) := by
  induction visits generalizing m cells table t with
  | nil => exact ⟨m, cells, rfl, h, fun _ _ => rfl, fun fd => (if_neg nofun).symm⟩
  | cons e visits ih =>
      obtain ⟨c, hc, heq, -⟩ := hrow.visit (hvisits.here e List.mem_cons_self)
      obtain ⟨hfree, hfree', h₁⟩ := h.free_cells hc
      obtain ⟨m', cells', hrun, h', hothers, hcells⟩ := ih h₁ (hrow.erase e.1) hvisits.erase
      have hstep : freeEntry m e = .ok (((m.free c.key).free c.chars).free c.value) := by
        simp only [freeEntry, heq, hfree, ok_bind, hfree']
      refine ⟨m', cells', foldlM_cons_ok.mpr ⟨_, hstep, hrun⟩, h', fun x hx => ?_, fun fd => ?_⟩
      · rw [hothers x hx, Function.update_of_ne fun heq => hx (by rw [heq])]
      · rw [hcells, Function.update_apply, List.keys_cons]
        by_cases hfd : fd = e.1
        · rw [hfd, if_pos rfl, if_pos List.mem_cons_self, ite_self]
        · rw [if_neg fun heq => hfd (Prod.mk.inj heq).2]
          simp only [List.mem_cons, hfd, false_or]

/-! ### Runs -/

/-- The heap, and the tables that have been made and not yet freed. -/
abbrev Tables (κ : Type) := TableStore.Tables κ (Arena Block) HashTable

/-- Nothing has been allocated. -/
def Tables.start : Tables κ := ⟨Arena.empty, fun _ => none⟩

/-- A call of a function of `src/fd_table.c`.  Where it iterates it comes with the order. -/
inductive Op (κ : Type) where
  | create (i : κ)
  | insert (i : κ) (fd : CInt) (filename : CString) (cloexec : Bool)
  | insertDup (i : κ) (origFd dupFd : CInt) (cloexec slave : Bool)
  | setCloexec (i : κ) (fd : CInt) (cloexec : Bool)
  | remove (i : κ) (fd : CInt)
  | removeCloexec (i : κ) (visits : List Visit)
  | deepCopy (i copy : κ) (visits : List Visit)
  | free (i : κ) (visits : List Visit)

/-- The call, in memory. -/
def Tables.step (s : Tables κ) : Op κ → Except Abort (Tables κ)
  | .create i => s.put i (fdTableCreate s.heap)
  | .insert i fd filename cloexec => do
    let table ← s.get .useAfterFree i
    s.put i (fdTableInsertIntern s.heap table fd (.elsewhere filename) cloexec)
  | .insertDup i origFd dupFd cloexec slave => do
    let table ← s.get .useAfterFree i
    s.put i (fdTableInsertDup s.heap table origFd dupFd cloexec slave)
  | .setCloexec i fd cloexec => do
    let table ← s.get .useAfterFree i
    s.put i (fdTableSetCloexec s.heap table fd cloexec)
  | .remove i fd => do
    let table ← s.get .useAfterFree i
    s.put i (gHashTableRemove s.heap table fd)
  | .removeCloexec i visits => do
    let table ← s.get .useAfterFree i
    s.put i (fdTableRemoveCloexec s.heap table visits)
  | .deepCopy i copy visits => do
    let _ ← s.get .useAfterFree i
    s.put copy (fdTableDeepCopy s.heap visits)
  | .free i visits => do
    let _ ← s.get .useAfterFree i
    s.drop i (fdTableFree s.heap visits)

/-- The contents of the tables, by the functions of `Iotrace.FdTable`. -/
abbrev Contents (κ : Type) := TableStore.Contents κ FdTable

/-- The call, on the contents. -/
def Contents.step (T : Contents κ) : Op κ → Except Abort (Contents κ)
  | .create i => T.put i (.ok Iotrace.fdTableCreate)
  | .insert i fd filename cloexec => do
    let t ← T.get .useAfterFree i
    T.put i (.ok (fdTableInsert t fd filename cloexec))
  | .insertDup i origFd dupFd cloexec slave => do
    let t ← T.get .useAfterFree i
    T.put i (Iotrace.fdTableInsertDup origFd dupFd cloexec slave t)
  | .setCloexec i fd cloexec => do
    let t ← T.get .useAfterFree i
    T.put i (Iotrace.fdTableSetCloexec fd cloexec t)
  | .remove i fd => do
    let t ← T.get .useAfterFree i
    T.put i (.ok (fdTableRemove t fd))
  | .removeCloexec i _ => do
    let t ← T.get .useAfterFree i
    T.put i (.ok (Iotrace.fdTableRemoveCloexec t))
  | .deepCopy i copy _ => do
    let t ← T.get .useAfterFree i
    T.put copy (.ok (Iotrace.fdTableDeepCopy t))
  | .free i _ => do
    let _ ← T.get .useAfterFree i
    T.drop i

/-- A new table gets a place of its own, and an iterator visits all entries of its table. -/
def Tables.Proper (s : Tables κ) : Op κ → Prop
  | .create i => s.tables i = none
  | .deepCopy i copy visits => s.tables copy = none ∧
      ∀ table, s.tables i = some table → (visits : Multiset Visit) = table.entries
  | .removeCloexec i visits | .free i visits =>
      ∀ table, s.tables i = some table → (visits : Multiset Visit) = table.entries
  | _ => True

/-- How a table lies in memory: its entries have blocks of their own. -/
def storage (κ : Type) : Storage κ CInt (Arena Block) Cells HashTable FdTable where
  Stored := Stored
  Row := Row
  empty := Arena.empty
  stored_empty := ⟨⟨fun _ => trivial, fun _ _ _ hx => hx.elim⟩, (fun _ ha => nomatch ha), nofun⟩
  row_congr := Row.congr

/-- What a function does in memory to a table with certain contents. -/
abbrev Does (cells : κ × CInt → Option Cells) (i : κ)
    (f : Except Abort (Arena Block × HashTable)) (g : Except Abort FdTable) : Prop :=
  (storage κ).Does cells i f g

theorem update_others {c : Option Cells} {fd : CInt} :
    ∀ x, x.1 ≠ i → Function.update cells (i, fd) c x = cells x := fun x hx =>
  Function.update_of_ne (fun heq => hx (by rw [heq])) _ _

theorem Stored.insert_does (h : Stored m cells) (hrow : Row cells i table t) {p : CharPtr}
    {s : CString} (hread : readChars m p = .ok s) (fd : CInt) (cloexec : Bool) :
    Does cells i (fdTableInsertIntern m table fd p cloexec)
      (.ok (fdTableInsert t fd s cloexec)) := by
  obtain ⟨m', table', c, hinsert, h', hrow'⟩ := h.insert hrow hread fd cloexec
  exact .of_ok hinsert h' hrow' update_others

theorem Stored.insertDup_does (h : Stored m cells) (hrow : Row cells i table t)
    (origFd dupFd : CInt) (cloexec slave : Bool) :
    Does cells i (fdTableInsertDup m table origFd dupFd cloexec slave)
      (Iotrace.fdTableInsertDup origFd dupFd cloexec slave t) := by
  have hpointers := hrow.pointers origFd
  have hcontents := hrow.contents origFd
  rw [fdTableInsertDup, Iotrace.fdTableInsertDup]
  cases hold : cells (i, origFd) with
  | none =>
      rw [hold, Option.map_none] at hpointers hcontents
      simp only [hpointers, hcontents]
      exact rfl
  | some c =>
      rw [hold, Option.map_some] at hpointers hcontents
      obtain ⟨-, hvalue, hchars⟩ := h.held hold
      have hread : readChars m (.block c.chars) = .ok c.filename := by
        rw [readChars, hchars]
      simp only [hpointers, hcontents, readEntry_of_cell hvalue, ok_bind, hread]
      cases slave with
      | true =>
          simp only [if_true]
          split_ifs
          · exact h.insert_does hrow rfl dupFd cloexec
          · exact rfl
      | false => exact h.insert_does hrow hread dupFd cloexec

theorem Stored.setCloexec_does (h : Stored m cells) (hrow : Row cells i table t) (fd : CInt)
    (cloexec : Bool) :
    Does cells i (fdTableSetCloexec m table fd cloexec)
      (Iotrace.fdTableSetCloexec fd cloexec t) := by
  have hcontents := hrow.contents fd
  cases hold : cells (i, fd) with
  | none =>
      have hpointers := hrow.pointers fd
      rw [hold, Option.map_none] at hpointers hcontents
      rw [fdTableSetCloexec, hpointers, fdTableSetCloexec_of_lookup_none hcontents cloexec]
      exact rfl
  | some c =>
      rw [hold, Option.map_some] at hcontents
      obtain ⟨m', hset, h', hrow'⟩ := h.setCloexec hrow hold cloexec
      rw [fdTableSetCloexec_of_lookup hcontents cloexec]
      exact .of_ok hset h' hrow' update_others

theorem Stored.remove_does (h : Stored m cells) (hrow : Row cells i table t) (fd : CInt) :
    Does cells i (gHashTableRemove m table fd) (.ok (fdTableRemove t fd)) := by
  obtain ⟨m', table', hremove, h', hrow', -⟩ := h.remove hrow fd
  exact .of_ok hremove h' hrow' update_others

theorem Stored.removeCloexec_does (h : Stored m cells) (hrow : Row cells i table t)
    {visits : List Visit} (hvisits : (visits : Multiset Visit) = table.entries) :
    Does cells i (fdTableRemoveCloexec m table visits)
      (.ok (Iotrace.fdTableRemoveCloexec t)) := by
  obtain ⟨hvisits, hall⟩ := Visits.of_entries hvisits
  obtain ⟨m', table', cells', t', hrun, h', hrow', hothers, hlook⟩ := h.removeCloexec hrow hvisits
  have ht' : t' = Iotrace.fdTableRemoveCloexec t := by
    refine Finmap.ext_lookup fun fd => ?_
    rw [hlook, lookup_fdTableRemoveCloexec, hrow.contents]
    have hfd := hall fd
    rw [hrow.pointers, Option.isSome_map] at hfd
    split_ifs with hmem
    · rfl
    · rw [hfd, Option.not_isSome_iff_eq_none] at hmem
      rw [hmem]
      rfl
  rw [ht'] at hrow'
  exact .of_ok hrun h' hrow' hothers

omit [DecidableEq κ] in
/-- A table without entries. -/
theorem row_empty (hnone : ∀ fd, cells (i, fd) = none) : Row cells i ∅ ∅ :=
  ⟨fun fd => by rw [hnone, Finmap.lookup_empty]; rfl,
    fun fd => by rw [hnone, Finmap.lookup_empty]; rfl⟩

theorem Stored.create_does (h : Stored m cells) (hnone : ∀ fd, cells (i, fd) = none) :
    Does cells i (fdTableCreate m) (.ok Iotrace.fdTableCreate) := by
  obtain ⟨m₁, table₁, c₁, hinsert₁, h₁, hrow₁⟩ := h.insert (row_empty hnone)
    (p := .elsewhere (cstr "stdin")) rfl 0 false
  obtain ⟨m₂, table₂, c₂, hinsert₂, h₂, hrow₂⟩ := h₁.insert hrow₁
    (p := .elsewhere (cstr "stdout")) rfl 1 false
  obtain ⟨m₃, table₃, c₃, hinsert₃, h₃, hrow₃⟩ := h₂.insert hrow₂
    (p := .elsewhere (cstr "stderr")) rfl 2 false
  have hcreate : fdTableCreate m = .ok (m₃, table₃) := by
    simp only [fdTableCreate, hinsert₁, ok_bind, hinsert₂, hinsert₃]
  refine .of_ok hcreate h₃ hrow₃ fun x hx => ?_
  rw [update_others x hx, update_others x hx, update_others x hx]

theorem Stored.deepCopy_does (h : Stored m cells) (hrow : Row cells i table t) (hne : j ≠ i)
    (hnone : ∀ fd, cells (j, fd) = none) {visits : List Visit}
    (hvisits : (visits : Multiset Visit) = table.entries) :
    Does cells j (fdTableDeepCopy m visits) (.ok (Iotrace.fdTableDeepCopy t)) := by
  obtain ⟨hvisits, hall⟩ := Visits.of_entries hvisits
  obtain ⟨m', copy, cells', t', hrun, h', hcopy, hothers, hlook⟩ :=
    h.copy hrow hne (row_empty hnone) hvisits
  have ht' : t' = Iotrace.fdTableDeepCopy t := by
    rw [fdTableDeepCopy_eq]
    refine Finmap.ext_lookup fun fd => ?_
    have hfd := hall fd
    rw [hrow.pointers, Option.isSome_map] at hfd
    rw [hlook, hrow.contents]
    split_ifs with hmem
    · rfl
    · rw [hfd, Option.not_isSome_iff_eq_none] at hmem
      rw [hmem]
      rfl
  rw [ht'] at hcopy
  exact .of_ok hrun h' hcopy hothers

/-- **`g_hash_table_destroy`** as a whole: nothing of the table is left. -/
theorem Stored.free_all (h : Stored m cells) (hrow : Row cells i table t) {visits : List Visit}
    (hvisits : (visits : Multiset Visit) = table.entries) :
    ∃ m' cells', fdTableFree m visits = .ok m' ∧ Stored m' cells' ∧
      (∀ x, x.1 ≠ i → cells' x = cells x) ∧ ∀ fd, cells' (i, fd) = none := by
  obtain ⟨hvisits, hall⟩ := Visits.of_entries hvisits
  obtain ⟨m', cells', hrun, h', hothers, hcells⟩ := h.free hrow hvisits
  refine ⟨m', cells', hrun, h', hothers, fun fd => ?_⟩
  rw [hcells]
  have hfd := hall fd
  rw [hrow.pointers, Option.isSome_map] at hfd
  split_ifs with hmem
  · rfl
  · rwa [hfd, Option.not_isSome_iff_eq_none] at hmem

/-- **The functions of `src/fd_table.c`** do in memory what they do to the contents. -/
theorem refines_step (s : Tables κ) (T : Contents κ) (op : Op κ) (h : (storage κ).Refines s T)
    (hop : s.Proper op) : Agree (storage κ).Refines (s.step op) (Contents.step T op) := by
  obtain ⟨cells, hstored, hlinks⟩ := h
  have hget := fun i => get_agree hlinks Abort.useAfterFree i
  cases op with
  | create i => exact put_agree hlinks (hstored.create_does ((hlinks i).free hop))
  | insert i fd filename cloexec =>
      exact (hget i).bind fun table t ⟨_, hrow⟩ =>
        put_agree hlinks (hstored.insert_does hrow rfl fd cloexec)
  | insertDup i origFd dupFd cloexec slave =>
      exact (hget i).bind fun table t ⟨_, hrow⟩ =>
        put_agree hlinks (hstored.insertDup_does hrow origFd dupFd cloexec slave)
  | setCloexec i fd cloexec =>
      exact (hget i).bind fun table t ⟨_, hrow⟩ =>
        put_agree hlinks (hstored.setCloexec_does hrow fd cloexec)
  | remove i fd =>
      exact (hget i).bind fun table t ⟨_, hrow⟩ =>
        put_agree hlinks (hstored.remove_does hrow fd)
  | removeCloexec i visits =>
      exact (hget i).bind fun table t ⟨htable, hrow⟩ =>
        put_agree hlinks (hstored.removeCloexec_does hrow (hop table htable))
  | deepCopy i copy visits =>
      obtain ⟨hcopy, hvisits⟩ := hop
      refine (hget i).bind fun table t ⟨htable, hrow⟩ => put_agree hlinks ?_
      have hne : copy ≠ i := by
        rintro rfl
        cases hcopy.symm.trans htable
      exact hstored.deepCopy_does hrow hne ((hlinks copy).free hcopy) (hvisits table htable)
  | free i visits =>
      refine (hget i).bind fun table t ⟨htable, hrow⟩ => ?_
      obtain ⟨m', cells', hrun, h', hothers, hnone⟩ := hstored.free_all hrow (hop table htable)
      exact drop_agree hlinks hrun h' hothers hnone

/-- `fd_table_lookup`, and the name that it points to. -/
def fdTableLookup (m : Arena Block) (table : HashTable) (fd : CInt) :
    Except Abort (Option CString) :=
  match table.lookup fd with
  | none => .ok none
  | some (_, entry) => do
    let (filename, _) ← readEntry m entry
    let s ← readChars m (.block filename)
    .ok (some s)

omit [DecidableEq κ] in
/-- A name is looked up where it lies. -/
theorem Stored.lookup (h : Stored m cells) (hrow : Row cells i table t) (fd : CInt) :
    fdTableLookup m table fd = .ok (Iotrace.fdTableLookup t fd) := by
  rw [fdTableLookup, Iotrace.fdTableLookup, hrow.pointers, hrow.contents]
  cases hold : cells (i, fd) with
  | none => rfl
  | some c =>
      obtain ⟨-, hvalue, hchars⟩ := h.held hold
      simp only [Option.map_some, readEntry_of_cell hvalue, ok_bind, readChars, hchars]

/-- The same tables are there, and `fd_table_lookup` finds the same names in them. -/
def Tables.Shows (s : Tables κ) (T : Contents κ) : Prop :=
  ∀ i, Option.Rel (fun table t => ∀ fd,
    fdTableLookup s.heap table fd = .ok (Iotrace.fdTableLookup t fd)) (s.tables i) (T i)

omit [DecidableEq κ] in
theorem shows_of_refines {s : Tables κ} {T : Contents κ} (h : (storage κ).Refines s T) :
    s.Shows T := by
  obtain ⟨cells, hstored, hlinks⟩ := h
  exact fun i => (hlinks i).rel fun table t _ hrow fd => Stored.lookup hstored hrow fd

/-- **A run in memory is a run on the contents.**  Take any number of tables in one heap
and any calls of the functions of `src/fd_table.c` on them, in any order, and with any
order in which the iterators visit the entries.  The calls in memory fail exactly where the
calls on the contents do, and with the same, and otherwise end with the same tables, in which
`fd_table_lookup` finds the same names.  The contents have no addresses, so no block is
used or freed after its release. -/
theorem fd_tables_refine {l : List (Op κ)}
    (hproper : Along Tables.step Tables.Proper (Tables.start : Tables κ) l) :
    (∀ e, l.foldlM Tables.step (Tables.start : Tables κ) = .error e ↔
        l.foldlM Contents.step (fun _ : κ => none) = .error e) ∧
      ∀ s, l.foldlM Tables.step (Tables.start : Tables κ) = .ok s →
        ∃ T, l.foldlM Contents.step (fun _ : κ => none) = .ok T ∧ s.Shows T := by
  obtain ⟨herror, hok⟩ := Refines.run refines_step hproper
  refine ⟨herror, fun s hs => ?_⟩
  obtain ⟨T, hT, h⟩ := hok s hs
  exact ⟨T, hT, shows_of_refines h⟩

/-- **Nothing stays behind.**  After any such calls every block that is in use belongs to a
table that has not been freed; when all tables have been freed, so have all blocks. -/
theorem fd_tables_leak_nothing {l : List (Op κ)}
    (hproper : Along Tables.step Tables.Proper (Tables.start : Tables κ) l) {s : Tables κ}
    (hrun : l.foldlM Tables.step (Tables.start : Tables κ) = .ok s)
    (hfreed : ∀ i, s.tables i = none) (a : ℕ) : s.heap.cell a = none := by
  obtain ⟨T, -, h⟩ := (Refines.run refines_step hproper).2 s hrun
  have hstored : Stored s.heap fun _ => none := h.nothing_left hfreed
  by_contra hsome
  obtain ⟨x, hx⟩ := hstored.covered a (Option.isSome_iff_ne_none.mpr hsome)
  exact hx.elim

/-- A table in which `stdout` is duplicated onto itself, with the flag; then its entry is
removed, and the table is freed. -/
def dupOntoItself : List (Op ℕ) :=
  [.create 0, .insertDup 0 1 1 true false,
    .removeCloexec 0 [⟨1, 3, 10⟩, ⟨2, 6, 7⟩, ⟨0, 0, 1⟩], .free 0 [⟨2, 6, 7⟩, ⟨0, 0, 1⟩]]

theorem dupOntoItself_proper : Along Tables.step Tables.Proper Tables.start dupOntoItself := by
  refine ⟨rfl, fun s₁ h₁ => ?_⟩
  obtain rfl := Except.ok.inj h₁
  refine ⟨trivial, fun s₂ h₂ => ?_⟩
  obtain rfl := Except.ok.inj h₂
  refine ⟨fun table htable => ?_, fun s₃ h₃ => ?_⟩
  · obtain rfl := Option.some.inj htable
    rfl
  · obtain rfl := Except.ok.inj h₃
    refine ⟨fun table htable => ?_, fun _ _ => trivial⟩
    obtain rfl := Option.some.inj htable
    rfl

/-- The name is read before the entry that it lies in is freed. -/
theorem fd_tables_refine_dup : ∃ s, dupOntoItself.foldlM Tables.step Tables.start = .ok s ∧
    ∃ T, dupOntoItself.foldlM Contents.step (fun _ => none) = .ok T ∧ s.Shows T := by
  obtain ⟨s, hs⟩ : ∃ s, dupOntoItself.foldlM Tables.step Tables.start = .ok s := ⟨_, rfl⟩
  exact ⟨s, hs, (fd_tables_refine dupOntoItself_proper).2 s hs⟩

/-- After the table has been freed there is no block. -/
theorem fd_tables_leak_nothing_dup : ∃ s, dupOntoItself.foldlM Tables.step Tables.start = .ok s ∧
    ∀ a, s.heap.cell a = none := by
  obtain ⟨s, hs⟩ : ∃ s, dupOntoItself.foldlM Tables.step Tables.start = .ok s := ⟨_, rfl⟩
  refine ⟨s, hs, fd_tables_leak_nothing dupOntoItself_proper hs fun i => ?_⟩
  obtain rfl := Except.ok.inj hs
  cases i with
  | zero => rfl
  | succ i => rfl

end Malloc

end Iotrace
