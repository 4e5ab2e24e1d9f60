/-
# The file statistics in memory

Runs of the functions of `src/file_stat.c` on any number of tables that lie in one heap.
`file_tables_refine` is the result: a run in memory gives, or fails with, what the run of
`Iotrace.FileStat` on the contents gives or fails with, and an iterator over a table in memory,
and over the histograms in it, reads the contents.  The latter have no addresses, so nothing
is used or freed after its release.  When all tables have been freed, so have been all
blocks (`file_tables_leak_nothing`).  As in `Iotrace.FdTableRuns` both are instances of what
holds of any tables in one heap (`TableStore`).
-/

import Iotrace.FileStatEntries
import Iotrace.Library.TableStore

namespace Iotrace

namespace StatMalloc

open FiniteMap Runs Outcome TableStore TableStore.Storage

variable {κ : Type}

/-- The name of a block: a part of the entry of a file in a table. -/
def slot (i : κ) (file : CString) (q : Part) : κ × CString × Part := (i, file, q)

theorem slot_injective (i : κ) (file : CString) : Function.Injective (slot i file) := by
  intro q q' h
  exact (Prod.mk.inj (Prod.mk.inj h).2).2

theorem slot_notMem {i j : κ} {file file' : CString} (hne : j ≠ i ∨ file' ≠ file) (q : Part) :
    slot j file' q ∉ Set.range (slot i file) := by
  rintro ⟨q', heq⟩
  obtain ⟨rfl, hrest⟩ := Prod.mk.inj heq
  obtain ⟨rfl, -⟩ := Prod.mk.inj hrest
  exact hne.elim (fun h => h rfl) fun h => h rfl

variable {m : Arena Block} {cells cells' : Cells (κ × CString × Part)} {i j : κ}
  {table : HashTable} {t : FileStatTable} {file : CString} {e : ℕ × ℕ} {addr : Side → ℕ}
  {stat : Iotrace.FileStat}

/-- What there is in memory of an entry: its addresses, and its statistics. -/
def Row (c : Cells Part) (file : CString) : Option (ℕ × ℕ) → Option Iotrace.FileStat → Prop
  | some e, some stat => ∃ addr, Entry c file e addr stat
  | none, none => ∀ q, c q = none
  | _, _ => False

/-- A table in memory and its contents. -/
def Contains (cells : Cells (κ × CString × Part)) (i : κ) (table : HashTable)
    (t : FileStatTable) : Prop :=
  ∀ file, Row (cells ∘ slot i file) file (table.lookup file) (t.lookup file)

theorem Contains.of_lookup (h : Contains cells i table t) (he : table.lookup file = some e) :
    ∃ addr stat, t.lookup file = some stat ∧ Entry (cells ∘ slot i file) file e addr stat := by
  have hrow := h file
  rw [he] at hrow
  match t.lookup file, hrow with
  | some stat, ⟨addr, hentry⟩ => exact ⟨addr, stat, rfl, hentry⟩
  | none, hrow => exact hrow.elim

theorem Contains.of_lookup_none (h : Contains cells i table t) (he : table.lookup file = none) :
    t.lookup file = none ∧ ∀ q, cells (slot i file q) = none := by
  have hrow := h file
  rw [he] at hrow
  match t.lookup file, hrow with
  | some stat, hrow => exact hrow.elim
  | none, hrow => exact ⟨rfl, hrow⟩

/-- A table is not touched by changes of the others. -/
theorem Contains.congr (h : Contains cells i table t)
    (hsame : ∀ q, cells' (i, q) = cells (i, q)) : Contains cells' i table t := by
  intro file
  have hcells : cells' ∘ slot i file = cells ∘ slot i file :=
    funext fun q => hsame (file, q)
  rw [hcells]
  exact h file

/-- **One entry is new, or has changed.** -/
theorem Contains.insert (h : Contains cells i table t)
    (hsame : Set.EqOn cells' cells (Set.range (slot i file))ᶜ)
    (hentry : Entry (cells' ∘ slot i file) file e addr stat) :
    Contains cells' i (table.insert file e) (t.insert file stat) := by
  intro file'
  rw [lookup_insert_eq, lookup_insert_eq]
  by_cases hf : file' = file
  · rw [if_pos hf, if_pos hf, hf]
    exact ⟨addr, hentry⟩
  · rw [if_neg hf, if_neg hf]
    have hcells : cells' ∘ slot i file' = cells ∘ slot i file' :=
      funext fun q => hsame (slot_notMem (Or.inr hf) q)
    rw [hcells]
    exact h file'

/-- A change in an entry is one in its table. -/
theorem eqOn_others (hsame : Set.EqOn cells' cells (Set.range (slot i file))ᶜ) :
    Set.EqOn cells' cells {x | x.1 ≠ i} := fun x hx => hsame (by
  rintro ⟨q, rfl⟩
  exact hx rfl)

/-- How a table lies in memory: it has the blocks of its entries. -/
def storage (κ : Type) :
    Storage κ (CString × Part) (Arena Block) (ℕ × Block) HashTable FileStatTable where
  Stored := Named
  Row := Contains
  empty := Arena.empty
  stored_empty := Named.empty
  row_congr := Contains.congr

/-- What a function does in memory to a table: it leaves one with the contents `t`. -/
abbrev Does (cells : Cells (κ × CString × Part)) (i : κ)
    (f : Except Abort (Arena Block × HashTable)) (t : FileStatTable) : Prop :=
  (storage κ).Does cells i f (.ok t : Except Abort FileStatTable)

variable [DecidableEq κ]

/-! ### Recording -/

/-- **`file_stat_get_safe`** gives the entry of a file, which it may have made. -/
theorem fileStatGetSafe_does (hm : Named m cells) (h : Contains cells i table t)
    (file : CString) (order : Order) :
    ∃ m' table' cells' e addr, fileStatGetSafe order m table file = .ok (m', table', e.2) ∧
      Named m' cells' ∧ Set.EqOn cells' cells (Set.range (slot i file))ᶜ ∧
      Contains cells' i table' (Iotrace.fileStatGetSafe t file).1 ∧
      table'.lookup file = some e ∧
      Entry (cells' ∘ slot i file) file e addr (Iotrace.fileStatGetSafe t file).2 := by
  rw [fileStatGetSafe, Iotrace.fileStatGetSafe, fileStatGet, Iotrace.fileStatGet]
  cases he : table.lookup file with
  | some e =>
      obtain ⟨addr, stat, hstat, hentry⟩ := h.of_lookup he
      rw [hstat]
      exact ⟨m, table, cells, e, addr, rfl, hm, fun _ _ => rfl, h, he, hentry⟩
  | none =>
      obtain ⟨hstat, hnone⟩ := h.of_lookup_none he
      obtain ⟨m', cells', e, addr, hrun, hm', hsame, hentry⟩ :=
        statTableInsert_entry (slot_injective i file) hm hnone he order
      rw [hstat]
      have hlook := Finmap.lookup_insert (a := file) (b := e) table
      refine ⟨m', table.insert file e, cells', e, addr, ?_, hm', hsame, h.insert hsame hentry,
        hlook, hentry⟩
      simp only [Option.map_none, hrun, ok_bind, fileStatGet, hlook, Option.map_some]

/-- **Getting an entry and changing it.** -/
theorem Contains.incr (hm : Named m cells) (h : Contains cells i table t) (file : CString)
    (order : Order) (f : Iotrace.FileStat → Iotrace.FileStat)
    (run : Arena Block → ℕ → Except Abort (Arena Block))
    (hrun : ∀ m cells e addr stat, Named m cells → Entry (cells ∘ slot i file) file e addr stat →
      ∃ m' cells', run m e.2 = .ok m' ∧ Named m' cells' ∧
        Set.EqOn cells' cells (Set.range (slot i file))ᶜ ∧
        Entry (cells' ∘ slot i file) file e addr (f stat)) :
    Does cells i (do
      let (m, table, tmp) ← fileStatGetSafe order m table file
      let m ← run m tmp
      .ok (m, table))
      ((Iotrace.fileStatGetSafe t file).1.insert file (f (Iotrace.fileStatGetSafe t file).2)) := by
  obtain ⟨m₁, table₁, cells₁, e, addr, hget, hm₁, hsame₁, h₁, he, hentry⟩ :=
    fileStatGetSafe_does hm h file order
  obtain ⟨m₂, cells₂, hrun₂, hm₂, hsame₂, hentry₂⟩ := hrun m₁ cells₁ e addr _ hm₁ hentry
  have h₂ := h₁.insert hsame₂ hentry₂
  rw [insert_eq_self_iff.mpr he] at h₂
  have hothers := (eqOn_others hsame₂).trans (eqOn_others hsame₁)
  refine .of_ok ?_ hm₂ h₂ fun x hx => hothers hx
  simp only [hget, ok_bind, hrun₂]

theorem incrOpen_does (hm : Named m cells) (h : Contains cells i table t) (file : CString)
    (order : Order) (timeNs : CULongLong) :
    Does cells i (fileStatIncrOpen order m table file timeNs)
      (Iotrace.fileStatIncrOpen t file timeNs) :=
  h.incr hm file order (fun stat => { stat with openStats := stat.openStats.incr timeNs })
    (assign fun stat => { stat with openStats := stat.openStats.incr timeNs })
    fun _ _ _ _ stat hm hentry => hentry.assign (slot_injective i file) hm
      { stat with openStats := stat.openStats.incr timeNs } rfl fun d => by cases d <;> rfl

theorem incrClose_does (hm : Named m cells) (h : Contains cells i table t) (file : CString)
    (order : Order) (timeNs : CULongLong) :
    Does cells i (fileStatIncrClose order m table file timeNs)
      (Iotrace.fileStatIncrClose t file timeNs) :=
  h.incr hm file order (fun stat => { stat with closeStats := stat.closeStats.incr timeNs })
    (assign fun stat => { stat with closeStats := stat.closeStats.incr timeNs })
    fun _ _ _ _ stat hm hentry => hentry.assign (slot_injective i file) hm
      { stat with closeStats := stat.closeStats.incr timeNs } rfl fun d => by cases d <;> rfl

theorem incrRead_does (hm : Named m cells) (h : Contains cells i table t) (file : CString)
    (order : Order) (timeNs : CULongLong) (bytes : CLong) :
    Does cells i (fileStatIncrRead order m table file timeNs bytes)
      (Iotrace.fileStatIncrRead t file timeNs bytes) :=
  h.incr hm file order
    (fun stat => withSide stat .read (Iotrace.fileStatIncrRw (sideOf stat .read) timeNs bytes))
    (fun m tmp => fileStatIncrRw m tmp .read timeNs bytes) fun _ _ _ _ _ hm hentry =>
      hentry.incrRw (slot_injective i file) hm .read timeNs bytes

theorem incrWrite_does (hm : Named m cells) (h : Contains cells i table t) (file : CString)
    (order : Order) (timeNs : CULongLong) (bytes : CLong) :
    Does cells i (fileStatIncrWrite order m table file timeNs bytes)
      (Iotrace.fileStatIncrWrite t file timeNs bytes) :=
  h.incr hm file order
    (fun stat => withSide stat .write (Iotrace.fileStatIncrRw (sideOf stat .write) timeNs bytes))
    (fun m tmp => fileStatIncrRw m tmp .write timeNs bytes) fun _ _ _ _ _ hm hentry =>
      hentry.incrRw (slot_injective i file) hm .write timeNs bytes

theorem create_does (hm : Named m cells) (hnone : ∀ file q, cells (slot i file q) = none)
    (order : Order) : Does cells i (fileStatCreate order m) Iotrace.fileStatCreate := by
  have hempty : Contains cells i ∅ ∅ := fun file => by
    rw [Finmap.lookup_empty, Finmap.lookup_empty]
    exact hnone file
  obtain ⟨m', cells', e, addr, hrun, hm', hsame, hentry⟩ := statTableInsert_entry
    (slot_injective i (cstr "NULL")) hm (hnone _) (Finmap.lookup_empty _) order
  exact .of_ok hrun hm' (hempty.insert hsame hentry) fun x hx => eqOn_others hsame hx

/-! ### The loops -/

/-- The order is one of the histograms of a table. -/
def Ordered (order : Order) (cells : Cells (κ × CString × Part)) (i : κ) : Prop :=
  ∀ file d a table, cells (slot i file (.side d .table)) = some (a, .blocks table) →
    (order a : Multiset BlockVisit) = table.entries

/-- **`file_state_merge`,** for the entries of the second table that are visited. -/
theorem Contains.merge (hne : j ≠ i) (hm : Named m cells) (h : Contains cells i table t)
    {table' : HashTable} {t' : FileStatTable} (h' : Contains cells j table' t') {order : Order}
    (horder : Ordered order cells j) {visits : List Visit} (hvisits : Visits table' visits) :
    ∃ m₁ table₁ cells₁ t₁, fileStateMerge order m table visits = .ok (m₁, table₁) ∧
      Named m₁ cells₁ ∧ Contains cells₁ i table₁ t₁ ∧ Set.EqOn cells₁ cells {x | x.1 ≠ i} ∧
      ∀ file, t₁.lookup file = if file ∈ visits.keys then
        (t'.lookup file).map fun stat' => ((t.lookup file).getD Iotrace.initFileStat).merge stat'
      else t.lookup file := by
  induction visits generalizing m cells table t with
  | nil =>
      exact ⟨m, table, cells, t, rfl, hm, h, fun _ _ => rfl, fun file => (if_neg nofun).symm⟩
  | cons e visits ih =>
      obtain ⟨addr', stat', ht', hentry'⟩ := h'.of_lookup (hvisits.here e List.mem_cons_self)
      have hname : cells (slot j e.1 .name) = some (e.2.1, .chars e.1) := hentry'.name
      obtain ⟨m₁, table₁, cells₁, e₁, addr₁, hget, hm₁, hsame₁, h₁, he₁, hentry₁⟩ :=
        fileStatGetSafe_does hm h e.1 order
      have hslot : ∀ q, slot j e.1 q ∉ Set.range (slot i e.1) := slot_notMem (Or.inl hne)
      obtain ⟨m₂, m₃, m₄, cells₄, hrun₂, hrun₃, hrun₄, hm₄, hsame₄, hentry₄⟩ :=
        hentry₁.merge (slot_injective i e.1) hslot hm₁ (hentry'.congr hslot hsame₁)
          order fun d table₂ htable₂ => horder e.1 d _ table₂
            ((hsame₁ (hslot _)).symm.trans htable₂)
      have h₄ := h₁.insert hsame₄ hentry₄
      rw [insert_eq_self_iff.mpr he₁] at h₄
      have hothers := (eqOn_others hsame₄).trans (eqOn_others hsame₁)
      have hj : ∀ x : κ × CString × Part, x.1 = j → cells₄ x = cells x := fun x hx =>
        hothers fun hi => hne (hx.symm.trans hi)
      have hstep : fileStateMergeEntry order (m, table) e = .ok (m₄, table₁) := by
        simp only [fileStateMergeEntry, access_ok Block.asChars hm hname rfl, ok_bind, hget,
          hrun₂, hrun₃, hrun₄]
      rw [insert_fileStatGetSafe t e.1 fun stat => stat.merge stat'] at h₄
      obtain ⟨m₅, table₅, cells₅, t₅, hrun₅, hm₅, h₅, hsame₅, hlook₅⟩ := ih hm₄ h₄
        (h'.congr fun q => hj (j, q) rfl)
        (fun file d a table htable => horder file d a table ((hj _ rfl).symm.trans htable))
        hvisits.tail
      refine ⟨m₅, table₅, cells₅, t₅, foldlM_cons_ok.mpr ⟨_, hstep, hrun₅⟩, hm₅, h₅,
        hsame₅.trans hothers, fun file => ?_⟩
      rw [hlook₅, List.keys_cons, lookup_modify]
      by_cases hf : file = e.1
      · rw [hf, if_neg hvisits.head_notMem, if_pos rfl, if_pos List.mem_cons_self, ht']
        rfl
      · simp only [List.mem_cons, hf, false_or, if_false]

theorem lookup_fileStateMerge (t t' : FileStatTable) (file : CString) :
    (Iotrace.fileStateMerge t t').lookup file =
      match t'.lookup file with
      | some stat' => some (((t.lookup file).getD Iotrace.initFileStat).merge stat')
      | none => t.lookup file := by
  have hwalk : Iotrace.fileStateMerge t t' = walk
      (fun t file stat' => FiniteMap.modify t file fun stat =>
        (stat.getD Iotrace.initFileStat).merge stat')
      (exchangeable_modify fun stat' stat => (stat.getD Iotrace.initFileStat).merge stat')
      t' t := by
    unfold Iotrace.fileStateMerge
    congr 1
    funext t file stat'
    exact fileStateMergeEntry_eq t file stat'
  rw [hwalk, lookup_walk_modify fun stat' stat => (stat.getD Iotrace.initFileStat).merge stat']
  cases t'.lookup file <;> rfl

/-- **`file_state_merge`** as a whole. -/
theorem merge_does (hne : j ≠ i) (hm : Named m cells) (h : Contains cells i table t)
    {table' : HashTable} {t' : FileStatTable} (h' : Contains cells j table' t') {order : Order}
    (horder : Ordered order cells j) {visits : List Visit}
    (hvisits : (visits : Multiset Visit) = table'.entries) :
    Does cells i (fileStateMerge order m table visits) (Iotrace.fileStateMerge t t') := by
  obtain ⟨hvisits, hall⟩ := Visits.of_entries hvisits
  obtain ⟨m₁, table₁, cells₁, t₁, hrun, hm₁, h₁, hothers, hlook⟩ :=
    h.merge hne hm h' horder hvisits
  have ht₁ : t₁ = Iotrace.fileStateMerge t t' := by
    refine Finmap.ext_lookup fun file => ?_
    rw [hlook, lookup_fileStateMerge]
    split_ifs with hfile
    · obtain ⟨e, he⟩ := Option.isSome_iff_exists.mp ((hall file).mp hfile)
      obtain ⟨addr, stat, hstat, -⟩ := h'.of_lookup he
      rw [hstat]
      rfl
    · rw [hall, Option.not_isSome_iff_eq_none] at hfile
      rw [(h'.of_lookup_none hfile).1]
  rw [ht₁] at h₁
  exact .of_ok hrun hm₁ h₁ fun x hx => hothers hx

/-- The entries that are visited are freed. -/
theorem free_entries (hm : Named m cells) {order : Order} (horder : Ordered order cells i)
    {visits : List Visit} (hnodup : visits.NodupKeys)
    (hhere : ∀ e ∈ visits, ∃ addr stat, Entry (cells ∘ slot i e.1) e.1 e.2 addr stat) :
    ∃ m' cells', fileStatFree order m visits = .ok m' ∧ Named m' cells' ∧
      Cleared {x | ∃ file ∈ visits.keys, x ∈ Set.range (slot i file)} cells cells' := by
  induction visits generalizing m cells with
  | nil => exact ⟨m, cells, rfl, hm, Cleared.refl.mono (Set.empty_subset _) nofun⟩
  | cons e visits ih =>
      obtain ⟨hnot, hnodup⟩ := List.nodupKeys_cons.mp hnodup
      obtain ⟨addr, stat, hentry⟩ := hhere e List.mem_cons_self
      obtain ⟨m₁, cells₁, hstep, hm₁, hclear₁⟩ := hentry.free (slot_injective i e.1) hm
        order fun d table htable => horder e.1 d _ table htable
      have horder₁ : Ordered order cells₁ i := fun file d a table htable => by
        refine horder file d a table ((hclear₁.kept fun hmem => ?_).symm.trans htable)
        cases (hclear₁.gone _ hmem).symm.trans htable
      have hhere₁ : ∀ e' ∈ visits, ∃ addr stat,
          Entry (cells₁ ∘ slot i e'.1) e'.1 e'.2 addr stat := by
        intro e' he'
        have hkey : e'.1 ≠ e.1 := fun heq => hnot (heq ▸ List.mem_keys_of_mem he')
        have hcells : cells₁ ∘ slot i e'.1 = cells ∘ slot i e'.1 :=
          funext fun q => hclear₁.kept (slot_notMem (Or.inr hkey) q)
        rw [hcells]
        exact hhere e' (List.mem_cons_of_mem e he')
      obtain ⟨m', cells', hrun, hm', hclear'⟩ := ih hm₁ horder₁ hnodup hhere₁
      refine ⟨m', cells', foldlM_cons_ok.mpr ⟨m₁, hstep, hrun⟩, hm',
        (hclear₁.union hclear').mono ?_ ?_⟩
      · rintro x (hx | ⟨file, hfile, hx⟩)
        · exact ⟨e.1, List.mem_cons_self, hx⟩
        · exact ⟨file, List.mem_cons_of_mem _ hfile, hx⟩
      · rintro x ⟨file, hfile, hx⟩ hnot
        rcases List.mem_cons.mp hfile with rfl | hfile
        · exact absurd (Or.inl hx) hnot
        · exact absurd (Or.inr ⟨file, hfile, hx⟩) hnot

/-- **`file_stat_free`** leaves no block of a table. -/
theorem Contains.free (hm : Named m cells) (h : Contains cells i table t) {order : Order}
    (horder : Ordered order cells i) {visits : List Visit}
    (hvisits : (visits : Multiset Visit) = table.entries) :
    ∃ m' cells', fileStatFree order m visits = .ok m' ∧ Named m' cells' ∧
      Cleared {x | x.1 = i} cells cells' := by
  obtain ⟨hvisits, hall⟩ := Visits.of_entries hvisits
  obtain ⟨m', cells', hrun, hm', hclear⟩ := free_entries hm horder hvisits.nodup fun e he => by
    obtain ⟨addr, stat, -, hentry⟩ := h.of_lookup (hvisits.here e he)
    exact ⟨addr, stat, hentry⟩
  refine ⟨m', cells', hrun, hm', hclear.mono ?_ ?_⟩
  · rintro x ⟨file, -, q, rfl⟩
    exact rfl
  · rintro ⟨i', file, q⟩ hi hnot
    obtain rfl : i' = i := hi
    have hfile : file ∉ visits.keys := fun hfile => hnot ⟨file, hfile, q, rfl⟩
    rw [hall, Option.not_isSome_iff_eq_none] at hfile
    exact (h.of_lookup_none hfile).2 q

omit [DecidableEq κ] in
/-- **What iterators read** in a table is what it contains. -/
theorem Contains.read (hm : Named m cells) (h : Contains cells i table t) {order : Order}
    (horder : Ordered order cells i) {visits : List Visit}
    (hvisits : (visits : Multiset Visit) = table.entries) :
    readTable order m visits = .ok t := by
  obtain ⟨hvisits, hall⟩ := Visits.of_entries hvisits
  have hread : ∀ (visits : List Visit), Visits table visits → ∀ acc : FileStatTable,
      ∃ acc', visits.foldlM (readEntry order m) acc = .ok acc' ∧ ∀ file, acc'.lookup file =
        if file ∈ visits.keys then t.lookup file else acc.lookup file := by
    intro visits hvisits
    induction visits with
    | nil => exact fun acc => ⟨acc, rfl, fun file => (if_neg nofun).symm⟩
    | cons e visits ih =>
        intro acc
        obtain ⟨addr, stat, hstat, hentry⟩ := h.of_lookup (hvisits.here e List.mem_cons_self)
        have hstep := hentry.read hm order
          (fun d table htable => horder e.1 d _ table htable) acc
        obtain ⟨acc', hrun, hlook⟩ := ih hvisits.tail (acc.insert e.1 stat)
        refine ⟨acc', foldlM_cons_ok.mpr ⟨_, hstep, hrun⟩, fun file => ?_⟩
        rw [hlook, List.keys_cons, lookup_insert_eq]
        by_cases hf : file = e.1
        · rw [hf, if_neg hvisits.head_notMem, if_pos rfl, if_pos List.mem_cons_self, hstat]
        · simp only [List.mem_cons, hf, false_or, if_false]
  obtain ⟨acc', hrun, hlook⟩ := hread visits hvisits ∅
  have hacc : acc' = t := by
    refine Finmap.ext_lookup fun file => ?_
    rw [hlook]
    split_ifs with hfile
    · rfl
    · rw [hall, Option.not_isSome_iff_eq_none] at hfile
      rw [Finmap.lookup_empty, (h.of_lookup_none hfile).1]
  rw [readTable, hrun, hacc]

/-! ### Runs -/

/-- The heap, and the tables that have been made and not yet freed. -/
abbrev Tables (κ : Type) := TableStore.Tables κ (Arena Block) HashTable

/-- Nothing has been allocated. -/
def Tables.start : Tables κ := ⟨Arena.empty, fun _ => none⟩

/-- A call of a function of `src/file_stat.c`. -/
inductive Op (κ : Type) where
  | create (i : κ)
  | incrOpen (i : κ) (filename : CString) (timeNs : CULongLong)
  | incrClose (i : κ) (filename : CString) (timeNs : CULongLong)
  | incrRead (i : κ) (filename : CString) (timeNs : CULongLong) (bytes : CLong)
  | incrWrite (i : κ) (filename : CString) (timeNs : CULongLong) (bytes : CLong)
  | merge (i j : κ)
  | free (i : κ)

/-- The orders in which the entries of tables and histograms are visited during a call. -/
structure Orders (κ : Type) where
  tables : κ → List Visit
  blocks : Order

/-- The orders are those of all entries. -/
structure Orders.Fit (o : Orders κ) (s : Tables κ) : Prop where
  tables : ∀ i table, s.tables i = some table → (o.tables i : Multiset Visit) = table.entries
  blocks : ∀ a table, s.heap.cell a = some (.blocks table) →
    (o.blocks a : Multiset BlockVisit) = table.entries

/-- The call, in memory. -/
def Tables.step (s : Tables κ) : Op κ × Orders κ → Except Abort (Tables κ)
  | (.create i, o) => s.put i (fileStatCreate o.blocks s.heap)
  | (.incrOpen i filename timeNs, o) => do
    let table ← s.get .useAfterFree i
    s.put i (fileStatIncrOpen o.blocks s.heap table filename timeNs)
  | (.incrClose i filename timeNs, o) => do
    let table ← s.get .useAfterFree i
    s.put i (fileStatIncrClose o.blocks s.heap table filename timeNs)
  | (.incrRead i filename timeNs bytes, o) => do
    let table ← s.get .useAfterFree i
    s.put i (fileStatIncrRead o.blocks s.heap table filename timeNs bytes)
  | (.incrWrite i filename timeNs bytes, o) => do
    let table ← s.get .useAfterFree i
    s.put i (fileStatIncrWrite o.blocks s.heap table filename timeNs bytes)
  | (.merge i j, o) => do
    let _ ← s.get .useAfterFree j
    let table ← s.get .useAfterFree i
    s.put i (fileStateMerge o.blocks s.heap table (o.tables j))
  | (.free i, o) => do
    let _ ← s.get .useAfterFree i
    s.drop i (fileStatFree o.blocks s.heap (o.tables i))

/-- The contents of the tables, by the functions of `Iotrace.FileStat`. -/
abbrev Contents (κ : Type) := TableStore.Contents κ FileStatTable

/-- The call, on the contents: no order matters. -/
def Contents.step (T : Contents κ) : Op κ × Orders κ → Except Abort (Contents κ)
  | (.create i, _) => T.put i (.ok Iotrace.fileStatCreate)
  | (.incrOpen i filename timeNs, _) => do
    let t ← T.get .useAfterFree i
    T.put i (.ok (Iotrace.fileStatIncrOpen t filename timeNs))
  | (.incrClose i filename timeNs, _) => do
    let t ← T.get .useAfterFree i
    T.put i (.ok (Iotrace.fileStatIncrClose t filename timeNs))
  | (.incrRead i filename timeNs bytes, _) => do
    let t ← T.get .useAfterFree i
    T.put i (.ok (Iotrace.fileStatIncrRead t filename timeNs bytes))
  | (.incrWrite i filename timeNs bytes, _) => do
    let t ← T.get .useAfterFree i
    T.put i (.ok (Iotrace.fileStatIncrWrite t filename timeNs bytes))
  | (.merge i j, _) => do
    let t' ← T.get .useAfterFree j
    let t ← T.get .useAfterFree i
    T.put i (.ok (Iotrace.fileStateMerge t t'))
  | (.free i, _) => do
    let _ ← T.get .useAfterFree i
    T.drop i

/-- The orders are those of all entries, a new table gets a place of its own, and no table
is merged with itself: `src/main.c` merges only the tables of threads into the main one. -/
def Tables.Proper (s : Tables κ) (call : Op κ × Orders κ) : Prop :=
  call.2.Fit s ∧ match call.1 with
    | .create i => s.tables i = none
    | .merge i j => j ≠ i
    | _ => True

omit [DecidableEq κ] in
/-- The orders fit the histograms of each table. -/
theorem Orders.Fit.ordered {o : Orders κ} {s : Tables κ} (ho : o.Fit s)
    (hm : Named s.heap cells) (i : κ) : Ordered o.blocks cells i := fun _ _ a table htable =>
  ho.blocks a table (hm.held _ a _ htable)

/-- **The functions of `src/file_stat.c`** do in memory what they do to the contents. -/
theorem refines_step (s : Tables κ) (T : Contents κ) (call : Op κ × Orders κ)
    (h : (storage κ).Refines s T) (hcall : s.Proper call) :
    Agree (storage κ).Refines (s.step call) (Contents.step T call) := by
  obtain ⟨cells, hm, hlinks⟩ := h
  obtain ⟨op, o⟩ := call
  obtain ⟨hfit, hop⟩ := hcall
  have hget := fun i => get_agree hlinks Abort.useAfterFree i
  cases op with
  | create i =>
      exact put_agree hlinks (create_does hm (fun file q => (hlinks i).free hop (file, q)) o.blocks)
  | incrOpen i filename timeNs =>
      exact (hget i).bind fun table t ⟨_, h⟩ =>
        put_agree hlinks (incrOpen_does hm h filename o.blocks timeNs)
  | incrClose i filename timeNs =>
      exact (hget i).bind fun table t ⟨_, h⟩ =>
        put_agree hlinks (incrClose_does hm h filename o.blocks timeNs)
  | incrRead i filename timeNs bytes =>
      exact (hget i).bind fun table t ⟨_, h⟩ =>
        put_agree hlinks (incrRead_does hm h filename o.blocks timeNs bytes)
  | incrWrite i filename timeNs bytes =>
      exact (hget i).bind fun table t ⟨_, h⟩ =>
        put_agree hlinks (incrWrite_does hm h filename o.blocks timeNs bytes)
  | merge i j =>
      exact (hget j).bind fun table' t' ⟨htable, h'⟩ => (hget i).bind fun table t ⟨_, h⟩ =>
        put_agree hlinks
          (merge_does hop hm h h' (hfit.ordered hm j) (hfit.tables j table' htable))
  | free i =>
      refine (hget i).bind fun table t ⟨htable, h⟩ => ?_
      obtain ⟨m', cells', hrun, hm', hclear⟩ :=
        Contains.free hm h (hfit.ordered hm i) (hfit.tables i table htable)
      exact drop_agree hlinks hrun hm' (fun x hx => hclear.kept hx) fun q => hclear.gone _ rfl

/-- The same tables are there, and iterators, in whatever order, read the contents in them. -/
def Tables.Shows (s : Tables κ) (T : Contents κ) : Prop :=
  ∀ i, Option.Rel (fun _ t => ∀ o : Orders κ, o.Fit s →
    readTable o.blocks s.heap (o.tables i) = .ok t) (s.tables i) (T i)

omit [DecidableEq κ] in
theorem shows_of_refines {s : Tables κ} {T : Contents κ} (h : (storage κ).Refines s T) :
    s.Shows T := by
  obtain ⟨cells, hm, hlinks⟩ := h
  exact fun i => (hlinks i).rel fun table t htable h o ho =>
    Contains.read hm h (ho.ordered hm i) (ho.tables i table htable)

/-- **A run in memory is a run on the contents.**  Take any number of tables in one heap
and any calls of the functions of `src/file_stat.c` on them, in any order, and with any
orders in which the entries of tables and histograms are visited.  The calls in memory fail
exactly where the calls on the contents do, which is where a table is used that is not there,
and otherwise end with the same tables, in which iterators read the same statistics, with
the same histograms. -/
theorem file_tables_refine {l : List (Op κ × Orders κ)}
    (hproper : Along Tables.step Tables.Proper (Tables.start : Tables κ) l) :
    (∀ e, l.foldlM Tables.step (Tables.start : Tables κ) = .error e ↔
        l.foldlM Contents.step (fun _ : κ => none) = .error e) ∧
      ∀ s, l.foldlM Tables.step (Tables.start : Tables κ) = .ok s →
        ∃ T, l.foldlM Contents.step (fun _ : κ => none) = .ok T ∧ s.Shows T := by
  obtain ⟨herror, hok⟩ := Refines.run refines_step hproper
  refine ⟨herror, fun s hs => ?_⟩
  obtain ⟨T, hT, h⟩ := hok s hs
  exact ⟨T, hT, shows_of_refines h⟩

/-- **Nothing stays behind.**  When all tables have been freed after any such calls, so have
been all blocks: the names, the statistics, the histograms and their keys and counts. -/
theorem file_tables_leak_nothing {l : List (Op κ × Orders κ)}
    (hproper : Along Tables.step Tables.Proper (Tables.start : Tables κ) l) {s : Tables κ}
    (hrun : l.foldlM Tables.step (Tables.start : Tables κ) = .ok s)
    (hfreed : ∀ i, s.tables i = none) (a : ℕ) : s.heap.cell a = none := by
  obtain ⟨T, -, h⟩ := (Refines.run refines_step hproper).2 s hrun
  have hm : Named s.heap fun _ => none := h.nothing_left hfreed
  exact hm.cell_eq_none (fun _ => rfl) a

/-- The entries of the histogram at an address, if there is one. -/
def blockEntries (s : Tables κ) (a : ℕ) : Option (Multiset BlockVisit) :=
  ((s.heap.cell a).bind Block.asBlocks).map Finmap.entries

omit [DecidableEq κ] in
/-- `Orders.Fit` for the addresses that have been handed out, so that it can be evaluated. -/
theorem Orders.fit_of {o : Orders κ} {s : Tables κ}
    (htables : ∀ i, ∀ entries ∈ (s.tables i).map Finmap.entries,
      (o.tables i : Multiset Visit) = entries)
    (hblocks : ∀ a < s.heap.next, ∀ entries ∈ blockEntries s a,
      (o.blocks a : Multiset BlockVisit) = entries) : o.Fit s where
  tables i table h := htables i table.entries (by rw [h]; rfl)
  blocks a table h := hblocks a (Arena.lt_next h) table.entries (by rw [blockEntries, h]; rfl)

/-- A read of ten bytes in one table, which another one takes in; then both are freed. -/
def readAndMerge : List (Op Bool × Orders Bool) :=
  let unknown (key value : ℕ) : List Visit := [⟨cstr "NULL", key, value⟩]
  let first (a : ℕ) : List BlockVisit := if a = 2 then [⟨10, 4, 5⟩] else []
  let both (a : ℕ) : List BlockVisit := if a = 8 then [⟨10, 10, 11⟩] else first a
  [(.create false, ⟨fun _ => [], fun _ => []⟩),
    (.incrRead false (cstr "NULL") 5 10, ⟨fun _ => unknown 0 1, fun _ => []⟩),
    (.create true, ⟨fun _ => unknown 0 1, first⟩),
    (.merge true false, ⟨fun i => if i then unknown 6 7 else unknown 0 1, first⟩),
    (.free false, ⟨fun i => if i then unknown 6 7 else unknown 0 1, both⟩),
    (.free true, ⟨fun _ => unknown 6 7, both⟩)]

theorem readAndMerge_proper : Along Tables.step Tables.Proper Tables.start readAndMerge := by
  refine ⟨⟨Orders.fit_of (by decide) (by decide), rfl⟩, fun s₁ h₁ => ?_⟩
  obtain rfl := Except.ok.inj h₁
  refine ⟨⟨Orders.fit_of (by decide) (by decide), trivial⟩, fun s₂ h₂ => ?_⟩
  obtain rfl := Except.ok.inj h₂
  refine ⟨⟨Orders.fit_of (by decide) (by decide), rfl⟩, fun s₃ h₃ => ?_⟩
  obtain rfl := Except.ok.inj h₃
  refine ⟨⟨Orders.fit_of (by decide) (by decide), by decide⟩, fun s₄ h₄ => ?_⟩
  obtain rfl := Except.ok.inj h₄
  refine ⟨⟨Orders.fit_of (by decide) (by decide), trivial⟩, fun s₅ h₅ => ?_⟩
  obtain rfl := Except.ok.inj h₅
  exact ⟨⟨Orders.fit_of (by decide) (by decide), trivial⟩, fun _ _ => trivial⟩

/-- The event of one histogram is made again in the other. -/
theorem file_tables_refine_merge :
    ∃ s, readAndMerge.foldlM Tables.step Tables.start = .ok s ∧
      ∃ T, readAndMerge.foldlM Contents.step (fun _ => none) = .ok T ∧ s.Shows T := by
  obtain ⟨s, hs⟩ : ∃ s, readAndMerge.foldlM Tables.step Tables.start = .ok s := ⟨_, rfl⟩
  exact ⟨s, hs, (file_tables_refine readAndMerge_proper).2 s hs⟩

/-- After both tables have been freed there is no block. -/
theorem file_tables_leak_nothing_merge :
    ∃ s, readAndMerge.foldlM Tables.step Tables.start = .ok s ∧ ∀ a, s.heap.cell a = none := by
  obtain ⟨s, hs⟩ : ∃ s, readAndMerge.foldlM Tables.step Tables.start = .ok s := ⟨_, rfl⟩
  refine ⟨s, hs, file_tables_leak_nothing readAndMerge_proper hs fun i => ?_⟩
  obtain rfl := Except.ok.inj hs
  cases i <;> rfl

end StatMalloc

end Iotrace
