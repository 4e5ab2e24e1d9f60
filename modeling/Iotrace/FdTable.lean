/-
# The table of a process's file descriptors

`src/fd_table.c`.  A table maps descriptor numbers to file names and close-on-exec
flags; GLib's hash table is a finite map here, since no function of the file
depends on the order of its entries.

The functions of this file are the bodies between `g_mutex_lock` and
`g_mutex_unlock`, on the contents of one table; `Iotrace.ThreadTemporaries` puts
them on tables in memory.  `fdTableInsertDup` and `fdTableSetCloexec` access the
entry they look up without a check, so that a missing one aborts.
-/

import Iotrace.Tracee
import Iotrace.Library.FiniteMap

namespace Iotrace

/-- `FILENAME_BUFF_SIZE` of `src/thread_temporaries.h`. -/
def FILENAME_BUFF_SIZE : ℕ := 256

/-- `fd_table_entry`. -/
structure FdTableEntry where
  filename : CString
  cloexec : Bool
  deriving DecidableEq

/-- The entries of a table, by descriptor number. -/
abbrev FdTable := Finmap fun _ : CInt => FdTableEntry

/-- `fd_table_insert_intern`, also the body of `fd_table_insert`: an entry under
the same number is replaced. -/
def fdTableInsert (fdTable : FdTable) (fd : CInt) (filename : CString) (cloexec : Bool) :
    FdTable :=
  fdTable.insert fd ⟨filename, cloexec⟩

/-- `fd_table_create`: the standard streams are open from the start. -/
def fdTableCreate : FdTable :=
  fdTableInsert (fdTableInsert (fdTableInsert ∅ 0 (cstr "stdin") false)
    1 (cstr "stdout") false) 2 (cstr "stderr") false

/-- The name that `fd_table_insert_dup` gives to the peer of a pseudoterminal:
the suffix follows the name where the buffer has room for it, and replaces the
last ten characters, NUL included, where it has not. -/
def slaveName (filename : CString) : CString :=
  let len := filename.length
  if len + 7 < FILENAME_BUFF_SIZE then filename ++ cstr " slave"
  else filename.take (len - 10) ++ cstr "... slave"

/-- `fd_table_insert_dup`.  The name of a peer is built in a buffer of
`FILENAME_BUFF_SIZE` bytes, into which the source's name is copied first. -/
def fdTableInsertDup (origFd dupFd : CInt) (cloexec slave : Bool) (fdTable : FdTable) :
    Except Abort FdTable :=
  match fdTable.lookup origFd with
  | none => .error .nullDereference
  | some entry =>
    if slave then
      if entry.filename.length < FILENAME_BUFF_SIZE then
        .ok (fdTableInsert fdTable dupFd (slaveName entry.filename) cloexec)
      else .error .bufferOverflow
    else .ok (fdTableInsert fdTable dupFd entry.filename cloexec)

/-- `fd_table_set_cloexec`. -/
def fdTableSetCloexec (fd : CInt) (cloexec : Bool) (fdTable : FdTable) : Except Abort FdTable :=
  match fdTable.lookup fd with
  | none => .error .nullDereference
  | some entry => .ok (fdTable.insert fd { entry with cloexec := cloexec })

/-- `fd_table_remove`, without the result that no caller uses. -/
def fdTableRemove (fdTable : FdTable) (fd : CInt) : FdTable := fdTable.erase fd

/-- `fd_table_remove_cloexec`. -/
def fdTableRemoveCloexec (fdTable : FdTable) : FdTable :=
  FiniteMap.keep (fun entry => !entry.cloexec) fdTable

/-- `fd_table_deep_copy`: every entry is inserted into a new table. -/
def fdTableDeepCopy (fdTable : FdTable) : FdTable := FiniteMap.keep (fun _ => true) fdTable

/-- `fd_table_lookup`. -/
def fdTableLookup (fdTable : FdTable) (fd : CInt) : Option CString :=
  (fdTable.lookup fd).map FdTableEntry.filename

theorem lookup_fdTableInsert (t : FdTable) (fd x : CInt) (name : CString) (cloexec : Bool) :
    (fdTableInsert t fd name cloexec).lookup x =
      if x = fd then some ⟨name, cloexec⟩ else t.lookup x :=
  FiniteMap.lookup_insert_eq t fd x _

theorem lookup_fdTableRemove (t : FdTable) (fd x : CInt) :
    (fdTableRemove t fd).lookup x = if x = fd then none else t.lookup x :=
  FiniteMap.lookup_erase_eq t fd x

/-- **What survives an `execve`:** the entries without the close-on-exec flag. -/
theorem lookup_fdTableRemoveCloexec (t : FdTable) (x : CInt) :
    (fdTableRemoveCloexec t).lookup x = (t.lookup x).filter fun entry => !entry.cloexec :=
  FiniteMap.lookup_keep _ t x

/-- The copy of a table has the same entries. -/
@[simp] theorem fdTableDeepCopy_eq (t : FdTable) : fdTableDeepCopy t = t := by
  refine Finmap.ext_lookup fun x => ?_
  rw [fdTableDeepCopy, FiniteMap.lookup_keep]
  cases t.lookup x <;> simp [Option.filter]

/-- **A duplicate of a descriptor that has an entry** is an entry under the new
number, with the name of the source. -/
theorem fdTableInsertDup_of_lookup {t : FdTable} {origFd : CInt} {entry : FdTableEntry}
    (h : t.lookup origFd = some entry) (dupFd : CInt) (cloexec : Bool) :
    fdTableInsertDup origFd dupFd cloexec false t =
      .ok (fdTableInsert t dupFd entry.filename cloexec) := by
  simp [fdTableInsertDup, h]

/-- **The peer of a descriptor that has an entry** is an entry under the new
number, with the slave variant of the name. -/
theorem fdTableInsertDup_slave_of_lookup {t : FdTable} {origFd : CInt} {entry : FdTableEntry}
    (h : t.lookup origFd = some entry) (hlen : entry.filename.length < FILENAME_BUFF_SIZE)
    (dupFd : CInt) (cloexec : Bool) :
    fdTableInsertDup origFd dupFd cloexec true t =
      .ok (fdTableInsert t dupFd (slaveName entry.filename) cloexec) := by
  simp [fdTableInsertDup, h, hlen]

/-- **A descriptor without an entry cannot be duplicated.** -/
theorem fdTableInsertDup_of_lookup_none {t : FdTable} {origFd : CInt}
    (h : t.lookup origFd = none) (dupFd : CInt) (cloexec slave : Bool) :
    fdTableInsertDup origFd dupFd cloexec slave t = .error .nullDereference := by
  simp [fdTableInsertDup, h]

theorem fdTableSetCloexec_of_lookup {t : FdTable} {fd : CInt} {entry : FdTableEntry}
    (h : t.lookup fd = some entry) (cloexec : Bool) :
    fdTableSetCloexec fd cloexec t = .ok (t.insert fd { entry with cloexec := cloexec }) := by
  simp [fdTableSetCloexec, h]

theorem fdTableSetCloexec_of_lookup_none {t : FdTable} {fd : CInt} (h : t.lookup fd = none)
    (cloexec : Bool) : fdTableSetCloexec fd cloexec t = .error .nullDereference := by
  simp [fdTableSetCloexec, h]

/-- Where the buffer has room the suffix follows the name. -/
theorem slaveName_of_fits {filename : CString} (h : filename.length + 7 < FILENAME_BUFF_SIZE) :
    slaveName filename = filename ++ cstr " slave" :=
  if_pos h

/-- Where it has not, the end of the name is replaced. -/
theorem slaveName_of_not_fits {filename : CString}
    (h : ¬filename.length + 7 < FILENAME_BUFF_SIZE) :
    slaveName filename = filename.take (filename.length - 10) ++ cstr "... slave" :=
  if_neg h

/-- The slave name of a name that fits the buffer has at most 254 bytes. -/
theorem slaveName_le {filename : CString} (h : filename.length ≤ 255) :
    (slaveName filename).length ≤ 254 := by
  have hslave : (cstr " slave").length = 6 := rfl
  have hdots : (cstr "... slave").length = 9 := rfl
  have hsize : FILENAME_BUFF_SIZE = 256 := rfl
  by_cases hfits : filename.length + 7 < FILENAME_BUFF_SIZE
  · rw [slaveName_of_fits hfits, List.length_append]
    omega
  · rw [slaveName_of_not_fits hfits, List.length_append, List.length_take]
    omega

/-- A slave name of a name that fits the buffer fits it too. -/
theorem slaveName_length {filename : CString} (h : filename.length < FILENAME_BUFF_SIZE) :
    (slaveName filename).length < FILENAME_BUFF_SIZE :=
  Nat.lt_of_le_of_lt (slaveName_le (Nat.le_of_lt_succ h)) (by decide)

/-! ### Names fit the buffer -/

/-- Every name in the table fits a `filename_buffer`. -/
def FdTable.Fits (t : FdTable) : Prop :=
  ∀ fd entry, t.lookup fd = some entry → entry.filename.length < FILENAME_BUFF_SIZE

theorem FdTable.Fits.insert {t : FdTable} (ht : t.Fits) (fd : CInt) {name : CString}
    (hname : name.length < FILENAME_BUFF_SIZE) (cloexec : Bool) :
    FdTable.Fits (fdTableInsert t fd name cloexec) := by
  intro x entry hx
  rw [lookup_fdTableInsert] at hx
  split_ifs at hx
  · obtain rfl := Option.some.inj hx
    exact hname
  · exact ht x entry hx

theorem FdTable.Fits.remove {t : FdTable} (ht : t.Fits) (fd : CInt) :
    FdTable.Fits (fdTableRemove t fd) := by
  intro x entry hx
  rw [lookup_fdTableRemove] at hx
  split_ifs at hx
  exact ht x entry hx

/-- **A duplicate** keeps the names within the buffer, and no longer one is copied. -/
theorem fdTableInsertDup_ensures {t : FdTable} (ht : t.Fits) (origFd dupFd : CInt)
    (cloexec slave : Bool) :
    Ensures FdTable.Fits (fdTableInsertDup origFd dupFd cloexec slave t) := by
  cases hlook : t.lookup origFd with
  | none =>
      rw [fdTableInsertDup_of_lookup_none hlook]
      exact nofun
  | some entry =>
      have hlen := ht origFd entry hlook
      cases slave with
      | false =>
          rw [fdTableInsertDup_of_lookup hlook]
          exact ht.insert _ hlen _
      | true =>
          rw [fdTableInsertDup_slave_of_lookup hlook hlen]
          exact ht.insert _ (slaveName_length hlen) _

theorem fdTableSetCloexec_ensures {t : FdTable} (ht : t.Fits) (fd : CInt) (cloexec : Bool) :
    Ensures FdTable.Fits (fdTableSetCloexec fd cloexec t) := by
  cases hlook : t.lookup fd with
  | none =>
      rw [fdTableSetCloexec_of_lookup_none hlook]
      exact nofun
  | some entry =>
      rw [fdTableSetCloexec_of_lookup hlook]
      exact ht.insert fd (ht fd entry hlook) cloexec

theorem FdTable.Fits.insertDup {t t' : FdTable} (ht : t.Fits) {origFd dupFd : CInt}
    {cloexec slave : Bool} (h : fdTableInsertDup origFd dupFd cloexec slave t = .ok t') :
    t'.Fits :=
  (fdTableInsertDup_ensures ht origFd dupFd cloexec slave).of_ok h

theorem FdTable.Fits.setCloexec {t t' : FdTable} (ht : t.Fits) {fd : CInt} {cloexec : Bool}
    (h : fdTableSetCloexec fd cloexec t = .ok t') : t'.Fits :=
  (fdTableSetCloexec_ensures ht fd cloexec).of_ok h

/-- What an `execve` leaves fits. -/
theorem FdTable.Fits.removeCloexec {t : FdTable} (ht : t.Fits) :
    FdTable.Fits (fdTableRemoveCloexec t) := by
  intro x entry hx
  rw [lookup_fdTableRemoveCloexec] at hx
  exact ht x entry (Option.filter_eq_some_iff.mp hx).1

/-- The first table of a trace fits. -/
theorem fdTableCreate_fits : fdTableCreate.Fits := by
  have hempty : FdTable.Fits ∅ := fun _ _ h => by simp at h
  exact ((hempty.insert 0 (by decide) false).insert 1 (by decide) false).insert 2 (by decide) false

end Iotrace
