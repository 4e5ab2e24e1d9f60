/-
# The statistics of the other syscalls in memory

`src/unconsidered_syscall_stat.c` once more, with the blocks that it allocates: the hash
table, and for each entry the number of the syscall and the `syscall_stat`.  This is a table
as in `HeapTable`, whose results give those of the file: a run of its functions on any number
of tables in one heap gives, or fails with, what the run of
`Iotrace.UnconsideredSyscallStat` on the contents gives or fails with
(`syscall_tables_refine`), and when all tables have been freed, so have been all blocks
(`syscall_tables_leak_nothing`), again as instances of `TableStore`.
-/

import Iotrace.Tracee
import Iotrace.UnconsideredSyscallStat
import Iotrace.Library.HeapTable
import Iotrace.Library.TableStore

namespace Iotrace

namespace SyscallMalloc

open FiniteMap HeapTable Runs Outcome TableStore TableStore.Storage

/-! ### The functions -/

/-- A block of memory that `unconsidered_syscall_stat.c` has allocated. -/
inductive Block where
  /-- A table: `g_hash_table_new_full`. -/
  | table (table : Addresses CInt)
  /-- A key: `malloc(sizeof(int))`. -/
  | syscall (sc : CInt)
  /-- `syscall_stat`. -/
  | stat (stat : SyscallStat)

/-- A block as a table; none, if it is another one. -/
def Block.asTable : Block → Option (Addresses CInt)
  | .table t => some t
  | _ => none

/-- A block as the number of a syscall; none, if it is another one. -/
def Block.asSyscall : Block → Option CInt
  | .syscall sc => some sc
  | _ => none

/-- A block as statistics; none, if it is another one. -/
def Block.asStat : Block → Option SyscallStat
  | .stat s => some s
  | _ => none

/-- The blocks of a table, which sees all of an `int`. -/
def syscalls : Layout Abort Block CInt CInt SyscallStat where
  bad := .useAfterFree
  ofTable := .table
  ofKey := .syscall
  ofValue := .stat
  asTable := Block.asTable
  asKey := Block.asSyscall
  asValue := Block.asStat
  hash := id
  asTable_ofTable _ := rfl
  asKey_ofKey _ := rfl
  asValue_ofValue _ := rfl

/-- For the address of each table, the order in which its entries are visited. -/
abbrev Order := ℕ → List (Visit CInt)

/-- `syscall_stat_create`. -/
def syscallStatCreate (m : Arena Block) : Arena Block × ℕ := (m.alloc (.table ∅), m.next)

/-- `syscall_stat_incr`.  The entry that `syscall_stat_get` does not find is made by
`syscall_stat_insert`, with zeros. -/
def syscallStatIncr (m : Arena Block) (table : ℕ) (syscall : CInt) (timeNs : CULongLong) :
    Except Abort (Arena Block) := do
  let (m, tmp) ← syscalls.valueFor m table syscall ⟨0, 0⟩
  syscalls.update m tmp fun stat => ⟨stat.count + 1, stat.totalNs + timeNs⟩

/-- `syscall_stat_merge`. -/
def syscallStatMerge (order : Order) (m : Arena Block) (table1 table2 : ℕ) :
    Except Abort (Arena Block) :=
  syscalls.merge ⟨0, 0⟩
    (fun stat1 stat2 => ⟨stat1.count + stat2.count, stat1.totalNs + stat2.totalNs⟩)
    m table1 table2 (order table2)

/-- `syscall_stat_free`. -/
def syscallStatFree (order : Order) (m : Arena Block) (table : ℕ) : Except Abort (Arena Block) :=
  syscalls.destroy m table (order table)

/-- A table as iterators go through it, such as that of `syscall_stat_print_all`: the numbers
and their statistics. -/
def readTable (order : Order) (m : Arena Block) (table : ℕ) :
    Except Abort (Finmap fun _ : CInt => CInt × SyscallStat) :=
  syscalls.read Prod.mk m table (order table)

/-! ### The contents -/

/-- The entries of a table with their keys. -/
def keyed (t : SyscallTable) (sc : CInt) : Option (CInt × SyscallStat) :=
  (t.lookup sc).map fun stat => (sc, stat)

theorem keyed_empty : keyed ∅ = fun _ => none := by
  funext sc
  rw [keyed, Finmap.lookup_empty]
  rfl

theorem keyed_insert (t : SyscallTable) (sc : CInt) (stat : SyscallStat) :
    keyed (t.insert sc stat) = Function.update (keyed t) sc (some (sc, stat)) := by
  funext sc'
  rw [keyed, lookup_insert_eq, Function.update_apply]
  split_ifs with hsc
  · rw [hsc]
    rfl
  · rfl

theorem keyed_incr (t : SyscallTable) (sc : CInt) (timeNs : CULongLong) :
    keyed (Iotrace.syscallStatIncr t sc timeNs) = Function.update (keyed t) sc
      (some (Layout.added sc ⟨0, 0⟩ (fun stat => ⟨stat.count + 1, stat.totalNs + timeNs⟩)
        (keyed t sc))) := by
  rw [Iotrace.syscallStatIncr, syscallStatGet]
  cases hstat : t.lookup sc with
  | some stat =>
      rw [keyed_insert]
      simp only [keyed, hstat, Option.map_some, Layout.added]
  | none =>
      have hfirst : (⟨1, timeNs⟩ : SyscallStat) = ⟨0 + 1, 0 + timeNs⟩ := by
        congr 1
        exact (BitVec.zero_add timeNs).symm
      simp only [syscallStatInsert, keyed_insert, Function.update_idem, hfirst]
      simp only [keyed, hstat, Option.map_none, Layout.added]

theorem keyed_merge (t t' : SyscallTable) :
    keyed (Iotrace.syscallStatMerge t t') = Layout.mergedContent ⟨0, 0⟩
      (fun stat1 stat2 => ⟨stat1.count + stat2.count, stat1.totalNs + stat2.totalNs⟩)
      (keyed t) (keyed t') := by
  have hwalk : Iotrace.syscallStatMerge t t' = walk
      (fun t sc stat' => FiniteMap.modify t sc fun stat =>
        (stat.getD ⟨0, 0⟩).merge stat')
      (exchangeable_modify fun (stat' : SyscallStat) (stat : Option SyscallStat) =>
        (stat.getD ⟨0, 0⟩).merge stat') t' t := by
    unfold Iotrace.syscallStatMerge
    congr 1
    funext t sc stat'
    exact syscallStatMergeEntry_eq t sc stat'
  funext sc
  rw [keyed, hwalk, lookup_walk_modify fun (stat' : SyscallStat) (stat : Option SyscallStat) =>
    (stat.getD ⟨0, 0⟩).merge stat', Layout.mergedContent]
  simp only [keyed]
  cases t'.lookup sc with
  | none => rfl
  | some stat' => cases t.lookup sc <;> rfl

/-! ### Runs -/

variable {κ : Type}

/-- The addresses and contents of blocks: each belongs to a table. -/
abbrev Cells (κ : Type) := κ × TablePart CInt → Option (ℕ × Block)

/-- The names of the blocks of a table. -/
def slot (i : κ) (q : TablePart CInt) : κ × TablePart CInt := (i, q)

theorem slot_injective (i : κ) : Function.Injective (slot i) := fun _ _ h => (Prod.mk.inj h).2

/-- The names of the blocks of another table are others. -/
theorem notMem_range_slot {i : κ} {x : κ × TablePart CInt} (hx : x.1 ≠ i) :
    x ∉ Set.range (slot i) := by
  rintro ⟨q, rfl⟩
  exact hx rfl

/-- The heap, and the addresses of the tables that have been made and not yet freed. -/
abbrev Tables (κ : Type) := TableStore.Tables κ (Arena Block) ℕ

/-- Nothing has been allocated. -/
def Tables.start : Tables κ := ⟨Arena.empty, fun _ => none⟩

/-- A call of a function of `src/unconsidered_syscall_stat.c`. -/
inductive Op (κ : Type) where
  | create (i : κ)
  | incr (i : κ) (syscall : CInt) (timeNs : CULongLong)
  | merge (i j : κ)
  | free (i : κ)

/-- The order is one of all entries of each table. -/
def Order.Fits (order : Order) (m : Arena Block) : Prop :=
  ∀ a table, m.cell a = some (.table table) → (order a : Multiset (Visit CInt)) = table.entries

section Step

variable [DecidableEq κ]

/-- A function leaves a table where it was. -/
def kept (table : ℕ) (f : Except Abort (Arena Block)) : Except Abort (Arena Block × ℕ) := do
  let heap ← f
  .ok (heap, table)

/-- The call, in memory. -/
def Tables.step (s : Tables κ) : Op κ × Order → Except Abort (Tables κ)
  | (.create i, _) => s.put i (.ok (syscallStatCreate s.heap))
  | (.incr i syscall timeNs, _) => do
    let table ← s.get .useAfterFree i
    s.put i (kept table (syscallStatIncr s.heap table syscall timeNs))
  | (.merge i j, order) => do
    let table1 ← s.get .useAfterFree i
    let table2 ← s.get .useAfterFree j
    s.put i (kept table1 (syscallStatMerge order s.heap table1 table2))
  | (.free i, order) => do
    let table ← s.get .useAfterFree i
    s.drop i (syscallStatFree order s.heap table)

/-- The contents of the tables, by the functions of `Iotrace.UnconsideredSyscallStat`. -/
abbrev Contents (κ : Type) := TableStore.Contents κ SyscallTable

/-- The call, on the contents: no order matters. -/
def Contents.step (T : Contents κ) : Op κ × Order → Except Abort (Contents κ)
  | (.create i, _) => T.put i (.ok Iotrace.syscallStatCreate)
  | (.incr i syscall timeNs, _) => do
    let t ← T.get .useAfterFree i
    T.put i (.ok (Iotrace.syscallStatIncr t syscall timeNs))
  | (.merge i j, _) => do
    let t ← T.get .useAfterFree i
    let t' ← T.get .useAfterFree j
    T.put i (.ok (Iotrace.syscallStatMerge t t'))
  | (.free i, _) => do
    let _ ← T.get .useAfterFree i
    T.drop i

end Step

/-- The order is one of all entries, a new table gets a place of its own, and no table is
merged with itself: `src/main.c` merges only the tables of threads into the main one. -/
def Tables.Proper (s : Tables κ) (call : Op κ × Order) : Prop :=
  call.2.Fits s.heap ∧ match call.1 with
    | .create i => s.tables i = none
    | .merge i j => j ≠ i
    | _ => True

/-- How a table lies in memory: the table is a block too. -/
def storage (κ : Type) : Storage κ (TablePart CInt) (Arena Block) (ℕ × Block) ℕ SyscallTable where
  Stored := Named
  Row cells i a t := ∃ table, syscalls.Holds (cells ∘ slot i) a table (keyed t)
  empty := Arena.empty
  stored_empty := Named.empty
  row_congr := fun ⟨table, hholds⟩ hsame => ⟨table, hholds.congr (funext hsame) rfl⟩

variable [DecidableEq κ] {m : Arena Block} {cells cells' : Cells κ} {i j : κ}

omit [DecidableEq κ] in
/-- A function that leaves a table where it is, and the blocks of the others. -/
theorem kept_does {a : ℕ} {t : SyscallTable} {table : Addresses CInt}
    {f : Except Abort (Arena Block)} (hf : f = .ok m) (hm : Named m cells')
    (hothers : Set.EqOn cells' cells (Set.range (slot i))ᶜ)
    (hholds : syscalls.Holds (cells' ∘ slot i) a table (keyed t)) :
    (storage κ).Does cells i (kept a f) (.ok t : Except Abort SyscallTable) := by
  have hrow : (storage κ).Row cells' i a t := ⟨table, hholds⟩
  rw [hf]
  exact .of_ok rfl hm hrow fun x hx => hothers (notMem_range_slot hx)

theorem create_does (hm : Named m cells) (hnone : ∀ q, cells (slot i q) = none) :
    (storage κ).Does cells i (.ok (syscallStatCreate m))
      (.ok Iotrace.syscallStatCreate : Except Abort SyscallTable) := by
  have hempty : syscalls.Holds (Function.update cells (slot i .table) (some (m.next, .table ∅)) ∘
      slot i) m.next ∅ (keyed Iotrace.syscallStatCreate) := by
    rw [Iotrace.syscallStatCreate, keyed_empty,
      Function.update_comp_eq_of_injective cells (slot_injective i)]
    refine Layout.Holds.empty (Function.update_self _ _ _) fun sc => ⟨?_, ?_⟩
    · rw [Function.update_of_ne (by simp)]
      exact hnone _
    · rw [Function.update_of_ne (by simp)]
      exact hnone _
  exact kept_does rfl (hm.alloc (hnone .table) (.table ∅)) (eqOn_update (slot i) .table cells _)
    hempty

/-- **The functions of `src/unconsidered_syscall_stat.c`** do in memory what they do to the
contents. -/
theorem refines_step (s : Tables κ) (T : Contents κ) (call : Op κ × Order)
    (h : (storage κ).Refines s T) (hcall : s.Proper call) :
    Agree (storage κ).Refines (s.step call) (Contents.step T call) := by
  obtain ⟨cells, hm, hlinks⟩ := h
  obtain ⟨op, order⟩ := call
  obtain ⟨hfits, hop⟩ := hcall
  have hget := fun i => get_agree hlinks Abort.useAfterFree i
  cases op with
  | create i => exact put_agree hlinks (create_does hm ((hlinks i).free hop))
  | incr i syscall timeNs =>
      refine (hget i).bind fun a t hgot => put_agree hlinks ?_
      obtain ⟨-, table, hholds⟩ := hgot
      obtain ⟨m₁, cells₁, tmp, m', cells', table', hget, -, -, hrun, hm', hothers, h'⟩ :=
        hholds.add (slot_injective i) hm syscall ⟨0, 0⟩
          fun stat => ⟨stat.count + 1, stat.totalNs + timeNs⟩
      refine kept_does ?_ hm' hothers (h'.congr rfl (keyed_incr t syscall timeNs))
      simp only [syscallStatIncr, hget, ok_bind, hrun]
  | merge i j =>
      refine (hget i).bind fun a t hgot => (hget j).bind fun b t' hgot' => put_agree hlinks ?_
      obtain ⟨-, table, hholds⟩ := hgot
      obtain ⟨-, table', hholds'⟩ := hgot'
      have hhere : cells (slot j .table) = some (b, .table table') := hholds'.here
      obtain ⟨m', cells', table₁, hrun, hm', hothers, h'⟩ := hholds.merge ⟨0, 0⟩
        (fun stat1 stat2 => ⟨stat1.count + stat2.count, stat1.totalNs + stat2.totalNs⟩)
        (slot_injective i) (fun q => notMem_range_slot hop) hm hholds'
        (hfits b table' (hm.held _ b _ hhere))
      exact kept_does hrun hm' hothers (h'.congr rfl (keyed_merge t t'))
  | free i =>
      refine (hget i).bind fun a t hgot => ?_
      obtain ⟨-, table, hholds⟩ := hgot
      have hhere : cells (slot i .table) = some (a, .table table) := hholds.here
      obtain ⟨m', cells', hrun, hm', hclear⟩ := hholds.destroy (slot_injective i) hm
        (hfits a table (hm.held _ a _ hhere))
      exact drop_agree hlinks hrun hm' (fun x hx => hclear.kept (notMem_range_slot hx))
        fun q => hclear.gone _ ⟨q, rfl⟩

/-- The same tables are there, and iterators, in whatever order, read the contents in them. -/
def Tables.Shows (s : Tables κ) (T : Contents κ) : Prop :=
  ∀ i, Option.Rel (fun a t => ∀ order : Order, order.Fits s.heap →
    ∃ read, readTable order s.heap a = .ok read ∧
      ∀ sc, read.lookup sc = (t.lookup sc).map fun stat => (sc, stat)) (s.tables i) (T i)

omit [DecidableEq κ] in
theorem shows_of_refines {s : Tables κ} {T : Contents κ} (h : (storage κ).Refines s T) :
    s.Shows T := by
  obtain ⟨cells, hm, hlinks⟩ := h
  refine fun i => (hlinks i).rel fun a t _ hrow order horder => ?_
  obtain ⟨table, hholds⟩ := hrow
  have hhere : cells (slot i .table) = some (a, .table table) := hholds.here
  obtain ⟨read, hrun, hlook⟩ := hholds.read Prod.mk hm (horder a table (hm.held _ a _ hhere))
  exact ⟨read, hrun, fun sc => (hlook sc).trans Option.map_id'⟩

/-- **A run in memory is a run on the contents.**  Take any number of tables in one heap
and any calls of the functions of `src/unconsidered_syscall_stat.c` on them, in any order, and
with any orders in which the entries of tables are visited.  The calls in memory fail exactly
where the calls on the contents do, which is where a table is used that is not there, and
otherwise end with the same tables, in which iterators read the same numbers and
statistics. -/
theorem syscall_tables_refine {l : List (Op κ × Order)}
    (hproper : Along Tables.step Tables.Proper (Tables.start : Tables κ) l) :
    (∀ e, l.foldlM Tables.step (Tables.start : Tables κ) = .error e ↔
        l.foldlM Contents.step (fun _ : κ => none) = .error e) ∧
      ∀ s, l.foldlM Tables.step (Tables.start : Tables κ) = .ok s →
        ∃ T, l.foldlM Contents.step (fun _ : κ => none) = .ok T ∧ s.Shows T := by
  obtain ⟨herror, hok⟩ := Refines.run refines_step hproper
  refine ⟨herror, fun s hs => ?_⟩
  obtain ⟨T, hT, h⟩ := hok s hs
  exact ⟨T, hT, shows_of_refines h⟩

/-- **Nothing stays behind.**  When all tables have been freed after any such calls, so have
been all blocks: the tables, the numbers and the statistics. -/
theorem syscall_tables_leak_nothing {l : List (Op κ × Order)}
    (hproper : Along Tables.step Tables.Proper (Tables.start : Tables κ) l) {s : Tables κ}
    (hrun : l.foldlM Tables.step (Tables.start : Tables κ) = .ok s)
    (hfreed : ∀ i, s.tables i = none) (a : ℕ) : s.heap.cell a = none := by
  obtain ⟨T, -, h⟩ := (Refines.run refines_step hproper).2 s hrun
  have hm : Named s.heap fun _ => none := h.nothing_left hfreed
  exact hm.cell_eq_none (fun _ => rfl) a

omit [DecidableEq κ] in
/-- `Order.Fits` for the addresses that have been handed out, so that it can be evaluated. -/
theorem Order.fits_of {order : Order}
    (h : ∀ a < m.next, ∀ entries ∈ ((m.cell a).bind Block.asTable).map Finmap.entries,
      (order a : Multiset (Visit CInt)) = entries) : order.Fits m := fun a table ha =>
  h a (Arena.lt_next ha) table.entries (by rw [ha]; rfl)

/-- A thread has called `getpid` once; its table is merged into a main table. -/
def getpidMerged : List (Op Bool × Order) :=
  let one (a : ℕ) : List (Visit CInt) := if a = 1 then [⟨39, 2, 3⟩] else []
  let both (a : ℕ) : List (Visit CInt) := if a = 0 then [⟨39, 4, 5⟩] else one a
  [(.create false, fun _ => []), (.create true, fun _ => []), (.incr true 39 120, fun _ => []),
    (.merge false true, one), (.free true, both), (.free false, both)]

theorem getpidMerged_proper : Along Tables.step Tables.Proper Tables.start getpidMerged := by
  refine ⟨⟨Order.fits_of (by decide), rfl⟩, fun s₁ h₁ => ?_⟩
  obtain rfl := Except.ok.inj h₁
  refine ⟨⟨Order.fits_of (by decide), rfl⟩, fun s₂ h₂ => ?_⟩
  obtain rfl := Except.ok.inj h₂
  refine ⟨⟨Order.fits_of (by decide), trivial⟩, fun s₃ h₃ => ?_⟩
  obtain rfl := Except.ok.inj h₃
  refine ⟨⟨Order.fits_of (by decide), by decide⟩, fun s₄ h₄ => ?_⟩
  obtain rfl := Except.ok.inj h₄
  refine ⟨⟨Order.fits_of (by decide), trivial⟩, fun s₅ h₅ => ?_⟩
  obtain rfl := Except.ok.inj h₅
  exact ⟨⟨Order.fits_of (by decide), trivial⟩, fun _ _ => trivial⟩

/-- The entry of one table is made again in the other. -/
theorem syscall_tables_refine_getpid :
    ∃ s, getpidMerged.foldlM Tables.step Tables.start = .ok s ∧
      ∃ T, getpidMerged.foldlM Contents.step (fun _ => none) = .ok T ∧ s.Shows T := by
  obtain ⟨s, hs⟩ : ∃ s, getpidMerged.foldlM Tables.step Tables.start = .ok s := ⟨_, rfl⟩
  exact ⟨s, hs, (syscall_tables_refine getpidMerged_proper).2 s hs⟩

/-- After both tables have been freed there is no block. -/
theorem syscall_tables_leak_nothing_getpid :
    ∃ s, getpidMerged.foldlM Tables.step Tables.start = .ok s ∧ ∀ a, s.heap.cell a = none := by
  obtain ⟨s, hs⟩ : ∃ s, getpidMerged.foldlM Tables.step Tables.start = .ok s := ⟨_, rfl⟩
  refine ⟨s, hs, syscall_tables_leak_nothing getpidMerged_proper hs fun i => ?_⟩
  obtain rfl := Except.ok.inj hs
  cases i <;> rfl

end SyscallMalloc

end Iotrace
