/-
# The memory of the descriptor tables

`src/fd_table.c` once more, with the blocks that it allocates.  An entry of a table is
three of them: the key, a `fd_table_entry` and the copy of the name that it points to.
GLib's hash table has the pointers to the first two.  It was made with functions that
free a key and a value, and calls them: at an insertion under a key that is there
already, for the key that it is given and the value that it gives up; at a removal, and
when the table is destroyed, for both.

Every access asks whether the block is there, so that an entry that is used, or freed,
after its release is `useAfterFree`.  The iterators visit the entries in the order of a
list that is given (`FiniteMap.Enumeration` says which lists are meant).
-/

import Iotrace.FdTable
import Iotrace.Library.Arena

namespace Iotrace

namespace Malloc

/-- A block of memory that `fd_table.c` has allocated. -/
inductive Block where
  /-- A key: `malloc(sizeof(int))`. -/
  | fd (fd : CInt)
  /-- `fd_table_entry`, with the address of the name. -/
  | entry (filename : ℕ) (cloexec : Bool)
  /-- A name: `malloc(sizeof(char) * (len + 1))`. -/
  | chars (s : CString)

/-- A table: under each key the addresses of the key and of the value. -/
abbrev HashTable := Finmap fun _ : CInt => ℕ × ℕ

/-- An entry of a table, as an iterator gives it. -/
abbrev Visit := Sigma fun _ : CInt => ℕ × ℕ

/-- `char const *`: a name in a block, or one that is elsewhere, such as a literal or an
array on the stack. -/
inductive CharPtr where
  | block (a : ℕ)
  | elsewhere (s : CString)

/-- `free`. -/
def free (m : Arena Block) (a : ℕ) : Except Abort (Arena Block) :=
  if (m.cell a).isSome then .ok (m.free a) else .error .useAfterFree

/-- `strlen` and `strcpy`: the string at a pointer. -/
def readChars (m : Arena Block) : CharPtr → Except Abort CString
  | .elsewhere s => .ok s
  | .block a =>
    match m.cell a with
    | some (.chars s) => .ok s
    | _ => .error .useAfterFree

/-- `entry->filename` and `entry->cloexec`. -/
def readEntry (m : Arena Block) (entry : ℕ) : Except Abort (ℕ × Bool) :=
  match m.cell entry with
  | some (.entry filename cloexec) => .ok (filename, cloexec)
  | _ => .error .useAfterFree

/-- `free_single_fd_table_entry`. -/
def freeSingleFdTableEntry (m : Arena Block) (entry : ℕ) : Except Abort (Arena Block) := do
  let (filename, _) ← readEntry m entry
  let m ← free m filename
  free m entry

/-- `g_hash_table_insert`: where the key is there already, the new key and the old value
are freed. -/
def gHashTableInsert (m : Arena Block) (table : HashTable) (key value : ℕ) :
    Except Abort (Arena Block × HashTable) :=
  match m.cell key with
  | some (.fd fd) =>
    match table.lookup fd with
    | some (oldKey, oldValue) => do
      let m ← free m key
      let m ← freeSingleFdTableEntry m oldValue
      .ok (m, table.insert fd (oldKey, value))
    | none => .ok (m, table.insert fd (key, value))
  | _ => .error .useAfterFree

/-- `g_hash_table_remove`, also `g_hash_table_iter_remove`. -/
def gHashTableRemove (m : Arena Block) (table : HashTable) (fd : CInt) :
    Except Abort (Arena Block × HashTable) :=
  match table.lookup fd with
  | some (key, value) => do
    let m ← free m key
    let m ← freeSingleFdTableEntry m value
    .ok (m, table.erase fd)
  | none => .ok (m, table)

/-- `fd_table_insert_intern`, also `fd_table_insert`. -/
def fdTableInsertIntern (m : Arena Block) (table : HashTable) (fd : CInt) (filename : CharPtr)
    (cloexec : Bool) : Except Abort (Arena Block × HashTable) := do
  let fdMem := m.next
  let m := m.alloc (.fd fd)
  let entryMem := m.next
  let m := m.alloc (.entry 0 false)
  let s ← readChars m filename
  let nameMem := m.next
  let m := m.alloc (.chars s)
  let m := m.write entryMem (.entry nameMem cloexec)
  gHashTableInsert m table fdMem entryMem

/-- `fd_table_create`. -/
def fdTableCreate (m : Arena Block) : Except Abort (Arena Block × HashTable) := do
  let (m, table) ← fdTableInsertIntern m ∅ 0 (.elsewhere (cstr "stdin")) false
  let (m, table) ← fdTableInsertIntern m table 1 (.elsewhere (cstr "stdout")) false
  fdTableInsertIntern m table 2 (.elsewhere (cstr "stderr")) false

/-- `fd_table_insert_dup`.  The name of the original is passed on as it lies in its entry,
which is the entry that is replaced if the descriptors are the same. -/
def fdTableInsertDup (m : Arena Block) (table : HashTable) (origFd dupFd : CInt)
    (cloexec slave : Bool) : Except Abort (Arena Block × HashTable) :=
  match table.lookup origFd with
  | none => .error .nullDereference
  | some (_, entry) => do
    let (filename, _) ← readEntry m entry
    if slave then
      let s ← readChars m (.block filename)
      if s.length < FILENAME_BUFF_SIZE then
        fdTableInsertIntern m table dupFd (.elsewhere (slaveName s)) cloexec
      else .error .bufferOverflow
    else fdTableInsertIntern m table dupFd (.block filename) cloexec

/-- `fd_table_set_cloexec`. -/
def fdTableSetCloexec (m : Arena Block) (table : HashTable) (fd : CInt) (cloexec : Bool) :
    Except Abort (Arena Block × HashTable) :=
  match table.lookup fd with
  | none => .error .nullDereference
  | some (_, entry) => do
    let (filename, _) ← readEntry m entry
    .ok (m.write entry (.entry filename cloexec), table)

/-- The loop body of `fd_table_remove_cloexec`. -/
def removeIfCloexec (s : Arena Block × HashTable) (e : Visit) :
    Except Abort (Arena Block × HashTable) := do
  let (_, cloexec) ← readEntry s.1 e.2.2
  if cloexec then gHashTableRemove s.1 s.2 e.1 else .ok s

/-- `fd_table_remove_cloexec`. -/
def fdTableRemoveCloexec (m : Arena Block) (table : HashTable) (visits : List Visit) :
    Except Abort (Arena Block × HashTable) :=
  visits.foldlM removeIfCloexec (m, table)

/-- The loop body of `fd_table_deep_copy`. -/
def insertCopy (s : Arena Block × HashTable) (e : Visit) :
    Except Abort (Arena Block × HashTable) :=
  match s.1.cell e.2.1 with
  | some (.fd fd) => do
    let (filename, cloexec) ← readEntry s.1 e.2.2
    fdTableInsertIntern s.1 s.2 fd (.block filename) cloexec
  | _ => .error .useAfterFree

/-- `fd_table_deep_copy`: the visits are those of the table that is copied. -/
def fdTableDeepCopy (m : Arena Block) (visits : List Visit) :
    Except Abort (Arena Block × HashTable) :=
  visits.foldlM insertCopy (m, ∅)

/-- The function that `g_hash_table_destroy` calls for an entry. -/
def freeEntry (m : Arena Block) (e : Visit) : Except Abort (Arena Block) := do
  let m ← free m e.2.1
  freeSingleFdTableEntry m e.2.2

/-- `fd_table_free`. -/
def fdTableFree (m : Arena Block) (visits : List Visit) : Except Abort (Arena Block) :=
  visits.foldlM freeEntry m

end Malloc

end Iotrace
