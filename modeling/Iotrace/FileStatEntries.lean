/-
# The entries of the file statistics in memory

What `src/file_stat.c` does to one entry of a table: a name, a `file_stat` and two
histograms.  As these it has names for its blocks (`Part`) and lies in a heap with others.
`Entry` says which statistics the blocks hold; an entry is made, gets new numbers and new
events, takes in another one, and is freed with everything that belongs to it.
-/

import Iotrace.FileStatBlocks

namespace Iotrace

namespace StatMalloc

open FiniteMap HeapTable

/-- The blocks of an entry. -/
inductive Part where
  | name
  | stat
  | side (d : Side) (q : TablePart CInt)
  deriving DecidableEq

theorem side_injective (d : Side) : Function.Injective (Part.side d) := by
  intro q q' h
  injection h

/-- The addresses and contents of blocks, under their names. -/
abbrev Cells (X : Type) := X → Option (ℕ × Block)

section Access

variable {X : Type} {m : Arena Block} {cells : Cells X} {x : X} {a : ℕ} {b : Block}

theorem access_ok {γ : Type} (as : Block → Option γ) {v : γ} (hm : Named m cells)
    (hx : cells x = some (a, b)) (hb : as b = some v) : access as m a = .ok v :=
  access_named _ as hm hx hb

theorem free_ok [DecidableEq X] (hm : Named m cells) (hx : cells x = some (a, b)) :
    ∃ m' cells', free m a = .ok m' ∧ Named m' cells' ∧ Cleared {x} cells cells' :=
  release_named _ hm hx

end Access

/-! ### Histograms -/

/-- A histogram in memory. -/
abbrev Histogram (c : Cells (TablePart CInt)) (a : ℕ) (table : Addresses CInt)
    (blocks : Blocks) : Prop :=
  histogram.Holds c a table fun low => blocks.lookup low

/-- The histogram of a new entry. -/
theorem histogram_empty {c : Cells (TablePart CInt)} {a : ℕ}
    (hhere : c .table = some (a, .blocks ∅))
    (hnone : ∀ low, c (.key low) = none ∧ c (.value low) = none) : Histogram c a ∅ ∅ :=
  (Layout.Holds.empty (T := histogram) hhere hnone).congr rfl
    (funext fun low => Finmap.lookup_empty low)

/-- An event in the histogram is a count that is found or made, and changed. -/
theorem lookup_incrBlocks (blocks : Blocks) (bytes : CLong) :
    (fun low => (incrBlocks blocks bytes).lookup low) =
      Function.update (fun low => blocks.lookup low) (toCInt bytes)
        (some (Layout.added bytes 0 (· + 1) (blocks.lookup (toCInt bytes)))) := by
  funext low
  rw [incrBlocks, Function.update_apply]
  cases blocks.lookup (toCInt bytes) with
  | some block => exact lookup_insert_eq blocks _ low _
  | none => exact lookup_insert_eq blocks _ low _

/-- The merge of two histograms, entry by entry. -/
theorem lookup_mergeBlocks (blocks blocks' : Blocks) :
    (fun low => (Iotrace.mergeBlocks blocks blocks').lookup low) =
      Layout.mergedContent 0 (· + ·) (fun low => blocks.lookup low)
        fun low => blocks'.lookup low := by
  have hwalk : Iotrace.mergeBlocks blocks blocks' = walk
      (fun t k v => FiniteMap.modify t k (mergedBlock v)) (exchangeable_modify mergedBlock)
      blocks' blocks := by
    unfold Iotrace.mergeBlocks
    congr 1
    funext t k v
    exact mergeBlocksEntry_eq t k v
  funext low
  rw [hwalk, lookup_walk_modify, Layout.mergedContent]
  cases blocks'.lookup low with
  | none => rfl
  | some entry => cases blocks.lookup low <;> rfl

/-! ### Statistics -/

/-- A side of the statistics. -/
def sideOf (stat : Iotrace.FileStat) : Side → Iotrace.ReadWriteStat
  | .read => stat.readStats
  | .write => stat.writeStats

/-- The statistics with another side. -/
def withSide (stat : Iotrace.FileStat) (d : Side) (s : Iotrace.ReadWriteStat) :
    Iotrace.FileStat :=
  match d with
  | .read => { stat with readStats := s }
  | .write => { stat with writeStats := s }

/-- The numbers of a `read_write_stat`, with the address of its histogram. -/
def ReadWriteStat.of (s : Iotrace.ReadWriteStat) (blocks : ℕ) : ReadWriteStat :=
  ⟨s.totalB, s.totalNs, s.minBps, s.maxBps, blocks⟩

/-- The numbers of a `file_stat`, with the addresses of the histograms. -/
def FileStat.of (stat : Iotrace.FileStat) (blocks : Side → ℕ) : FileStat :=
  ⟨stat.openStats, stat.closeStats, .of stat.readStats (blocks .read),
    .of stat.writeStats (blocks .write)⟩

/-- An entry in memory: its addresses and those of its histograms, the name of the file and
the statistics. -/
structure Entry (c : Cells Part) (file : CString) (e : ℕ × ℕ) (addr : Side → ℕ)
    (stat : Iotrace.FileStat) : Prop where
  name : c .name = some (e.1, .chars file)
  here : c .stat = some (e.2, .stat (.of stat addr))
  side : ∀ d, ∃ table, Histogram (c ∘ Part.side d) (addr d) table (sideOf stat d).blocks

theorem of_side (stat : Iotrace.FileStat) (addr : Side → ℕ) (d : Side) :
    (FileStat.of stat addr).side d = .of (sideOf stat d) (addr d) := by
  cases d <;> rfl

theorem of_setSide (stat : Iotrace.FileStat) (addr : Side → ℕ) (d : Side)
    (s : Iotrace.ReadWriteStat) :
    (FileStat.of stat addr).setSide d (.of s (addr d)) = .of (withSide stat d s) addr := by
  cases d <;> rfl

theorem of_side_blocks (stat : Iotrace.FileStat) (addr : Side → ℕ) (d : Side) :
    ((FileStat.of stat addr).side d).blocks = addr d := by
  rw [of_side]
  rfl

theorem sideOf_withSide (stat : Iotrace.FileStat) (d : Side) (s : Iotrace.ReadWriteStat) :
    sideOf (withSide stat d s) d = s := by
  cases d <;> rfl

theorem withSide_withSide (stat : Iotrace.FileStat) (d : Side) (s s' : Iotrace.ReadWriteStat) :
    withSide (withSide stat d s) d s' = withSide stat d s' := by
  cases d <;> rfl

/-- Other numbers on one side change no histogram. -/
theorem blocks_withSide (stat : Iotrace.FileStat) {d : Side} {s : Iotrace.ReadWriteStat}
    (hs : s.blocks = (sideOf stat d).blocks) (d' : Side) :
    (sideOf (withSide stat d s) d').blocks = (sideOf stat d').blocks := by
  cases d <;> cases d' <;> first | exact hs | rfl

section Entries

variable {X : Type} [DecidableEq X] {p : Part → X} {m : Arena Block} {cells : Cells X}
  {file : CString} {e : ℕ × ℕ} {addr : Side → ℕ} {stat : Iotrace.FileStat}

/-- **New numbers** are stored in an entry. -/
theorem Entry.write (hp : Function.Injective p) (hm : Named m cells)
    (h : Entry (cells ∘ p) file e addr stat) (stat' : Iotrace.FileStat)
    (hblocks : ∀ d, (sideOf stat' d).blocks = (sideOf stat d).blocks) :
    ∃ cells', Named (m.write e.2 (.stat (.of stat' addr))) cells' ∧
      Set.EqOn cells' cells (Set.range p)ᶜ ∧ Entry (cells' ∘ p) file e addr stat' := by
  have hstat : cells (p .stat) = some (e.2, .stat (.of stat addr)) := h.here
  refine ⟨_, hm.write hstat (.stat (.of stat' addr)), eqOn_update p _ _ _, ?_⟩
  rw [Function.update_comp_eq_of_injective _ hp]
  refine ⟨?_, Function.update_self _ _ _, fun d => ?_⟩
  · rw [Function.update_of_ne (by simp)]
    exact h.name
  · obtain ⟨table, hside⟩ := h.side d
    rw [hblocks]
    exact ⟨table, hside.congr (funext fun q => Function.update_of_ne (by simp) _ _) rfl⟩

/-- **Assignments** to members other than the histograms. -/
theorem Entry.assign (hp : Function.Injective p) (hm : Named m cells)
    (h : Entry (cells ∘ p) file e addr stat) {f : FileStat → FileStat} (stat' : Iotrace.FileStat)
    (hf : f (.of stat addr) = .of stat' addr)
    (hblocks : ∀ d, (sideOf stat' d).blocks = (sideOf stat d).blocks) :
    ∃ m' cells', StatMalloc.assign f m e.2 = .ok m' ∧ Named m' cells' ∧
      Set.EqOn cells' cells (Set.range p)ᶜ ∧ Entry (cells' ∘ p) file e addr stat' := by
  have hstat : cells (p .stat) = some (e.2, .stat (.of stat addr)) := h.here
  obtain ⟨cells', hm', hsame, h'⟩ := h.write hp hm stat' hblocks
  refine ⟨_, cells', ?_, hm', hsame, h'⟩
  rw [StatMalloc.assign, access_ok Block.asStat hm hstat rfl, ok_bind, hf]

omit [DecidableEq X] in
/-- **A histogram changes,** under the names that are its own. -/
theorem Entry.change (hp : Function.Injective p) (h : Entry (cells ∘ p) file e addr stat)
    {d : Side} {cells' : Cells X} {table : Addresses CInt} {s : Iotrace.ReadWriteStat}
    (hsame : Set.EqOn cells' cells (Set.range (p ∘ Part.side d))ᶜ)
    (hs : ReadWriteStat.of s (addr d) = .of (sideOf stat d) (addr d))
    (h' : Histogram (cells' ∘ p ∘ Part.side d) (addr d) table s.blocks) :
    Entry (cells' ∘ p) file e addr (withSide stat d s) := by
  have hout : ∀ q, (∀ q', q ≠ Part.side d q') → cells' (p q) = cells (p q) := fun q hq =>
    hsame fun ⟨q', heq⟩ => hq q' (hp heq).symm
  refine ⟨(hout .name (by simp)).trans h.name, ?_, fun d' => ?_⟩
  · rw [← of_setSide, hs, ← of_side]
    have hset : ∀ v : FileStat, v.setSide d (v.side d) = v := fun v => by cases d <;> rfl
    rw [hset]
    exact (hout .stat (by simp)).trans h.here
  · by_cases hd : d' = d
    · subst hd
      refine ⟨table, ?_⟩
      rw [sideOf_withSide]
      exact h'
    · obtain ⟨table', hside⟩ := h.side d'
      have hother : sideOf (withSide stat d s) d' = sideOf stat d' := by
        cases d <;> cases d' <;> first | rfl | exact absurd rfl hd
      rw [hother]
      have hcells : (cells' ∘ p) ∘ Part.side d' = (cells ∘ p) ∘ Part.side d' :=
        funext fun q => hout _ fun q' heq => hd (Part.side.inj heq).1
      exact ⟨table', hside.congr hcells rfl⟩

/-- **`file_stat_incr_rw`** on one side of an entry: the numbers are stored first, then the
histogram gets its event. -/
theorem Entry.incrRw (hp : Function.Injective p) (hm : Named m cells)
    (h : Entry (cells ∘ p) file e addr stat) (d : Side) (timeNs : CULongLong) (bytes : CLong) :
    ∃ m' cells', fileStatIncrRw m e.2 d timeNs bytes = .ok m' ∧ Named m' cells' ∧
      Set.EqOn cells' cells (Set.range p)ᶜ ∧ Entry (cells' ∘ p) file e addr
        (withSide stat d (Iotrace.fileStatIncrRw (sideOf stat d) timeNs bytes)) := by
  have hstat : cells (p .stat) = some (e.2, .stat (.of stat addr)) := h.here
  obtain ⟨cells₁, hm₁, hsame₁, h₁⟩ := h.write hp hm (withSide stat d
    { Iotrace.fileStatIncrRw (sideOf stat d) timeNs bytes with
      blocks := (sideOf stat d).blocks }) (blocks_withSide stat rfl)
  obtain ⟨table, hside⟩ := h₁.side d
  obtain ⟨m₂, cells₂, count, m', cells', table', hcount, -, -, hadd, hm', hsame', h'⟩ :=
    hside.add (p := p ∘ Part.side d) (hp.comp (side_injective d)) hm₁ bytes 0 (· + 1)
  rw [sideOf_withSide] at h'
  have hblocks : Histogram (cells' ∘ p ∘ Part.side d) (addr d) table'
      (incrBlocks (sideOf stat d).blocks bytes) := h'.congr rfl (lookup_incrBlocks _ _)
  have hentry := h₁.change hp
    (s := Iotrace.fileStatIncrRw (sideOf stat d) timeNs bytes) hsame' (by
      rw [sideOf_withSide]
      rfl) hblocks
  rw [withSide_withSide] at hentry
  have hnumbers : (FileStat.of stat addr).setSide d
      (((FileStat.of stat addr).side d).incr timeNs bytes) = .of (withSide stat d
        { Iotrace.fileStatIncrRw (sideOf stat d) timeNs bytes with
          blocks := (sideOf stat d).blocks }) addr := by
    rw [of_side, ← of_setSide]
    rfl
  refine ⟨m', cells', ?_, hm', ?_, hentry⟩
  · rw [fileStatIncrRw, access_ok Block.asStat hm hstat rfl, ok_bind]
    simp only [hnumbers, of_side_blocks, hcount, ok_bind, hadd]
  · exact (hsame'.mono (Set.compl_subset_compl.mpr (Set.range_comp_subset_range _ _))).trans hsame₁

section Merge

variable {p' : Part → X} {e' : ℕ × ℕ} {addr' : Side → ℕ} {stat' : Iotrace.FileStat}

omit [DecidableEq X] in
theorem Entry.congr {cells' : Cells X} (h : Entry (cells ∘ p') file e addr stat)
    (hpp' : ∀ q, p' q ∉ Set.range p) (hsame : Set.EqOn cells' cells (Set.range p)ᶜ) :
    Entry (cells' ∘ p') file e addr stat := by
  have hcells : cells' ∘ p' = cells ∘ p' := funext fun q => hsame (hpp' q)
  rw [hcells]
  exact h

theorem Entry.mergeCounts (hp : Function.Injective p) (hm : Named m cells)
    (h : Entry (cells ∘ p) file e addr stat) (h' : Entry (cells ∘ p') file e' addr' stat') :
    ∃ m₁ cells₁, StatMalloc.mergeCounts m e.2 e'.2 = .ok m₁ ∧ Named m₁ cells₁ ∧
      Set.EqOn cells₁ cells (Set.range p)ᶜ ∧ Entry (cells₁ ∘ p) file e addr
        { stat with
          openStats := mergeOpenClose stat.openStats stat'.openStats
          closeStats := mergeOpenClose stat.closeStats stat'.closeStats } := by
  have hstat : cells (p .stat) = some (e.2, .stat (.of stat addr)) := h.here
  have hstat' : cells (p' .stat) = some (e'.2, .stat (.of stat' addr')) := h'.here
  obtain ⟨cells₁, hm₁, hsame₁, h₁⟩ := h.write hp hm
    { stat with
      openStats := mergeOpenClose stat.openStats stat'.openStats
      closeStats := mergeOpenClose stat.closeStats stat'.closeStats } fun d => by cases d <;> rfl
  refine ⟨_, cells₁, ?_, hm₁, hsame₁, h₁⟩
  simp only [StatMalloc.mergeCounts, access_ok Block.asStat hm hstat rfl, ok_bind,
    access_ok Block.asStat hm hstat' rfl]
  rfl

/-- The statistics of one side, merged. -/
def mergedSide (s s' : Iotrace.ReadWriteStat) : Iotrace.ReadWriteStat :=
  { Iotrace.mergeReadWrite s s' with blocks := Iotrace.mergeBlocks s.blocks s'.blocks }

/-- **One side of an entry** takes in that of another, which is visited as a whole. -/
theorem Entry.mergeSide (hp : Function.Injective p) (hpp' : ∀ q, p' q ∉ Set.range p)
    (hm : Named m cells) (h : Entry (cells ∘ p) file e addr stat)
    (h' : Entry (cells ∘ p') file e' addr' stat') (d : Side) {order : Order}
    (horder : ∀ table, cells (p' (.side d .table)) = some (addr' d, .blocks table) →
      (order (addr' d) : Multiset BlockVisit) = table.entries) :
    ∃ m₁ cells₁, StatMalloc.mergeSide order d m e.2 e'.2 = .ok m₁ ∧ Named m₁ cells₁ ∧
      Set.EqOn cells₁ cells (Set.range p)ᶜ ∧ Entry (cells₁ ∘ p) file e addr
        (withSide stat d (mergedSide (sideOf stat d) (sideOf stat' d))) := by
  have hstat : cells (p .stat) = some (e.2, .stat (.of stat addr)) := h.here
  have hstat' : cells (p' .stat) = some (e'.2, .stat (.of stat' addr')) := h'.here
  obtain ⟨cells₁, hm₁, hsame₁, h₁⟩ := h.write hp hm (withSide stat d
    { mergedSide (sideOf stat d) (sideOf stat' d) with
      blocks := (sideOf stat d).blocks }) (blocks_withSide stat rfl)
  obtain ⟨table, hside⟩ := h₁.side d
  obtain ⟨table', hside'⟩ := (h'.congr hpp' hsame₁).side d
  have hhere' : cells₁ (p' (.side d .table)) = some (addr' d, .blocks table') := hside'.here
  have htable' := hhere'
  rw [hsame₁ (hpp' _)] at htable'
  have hblocks' : Histogram (cells₁ ∘ (p' ∘ Part.side d)) (addr' d) table'
      (sideOf stat' d).blocks := hside'
  obtain ⟨m₂, cells₂, table₂, hrun₂, hm₂, hsame₂, h₂⟩ :=
    hside.merge (p := p ∘ Part.side d) 0 (· + ·) (hp.comp (side_injective d))
      (fun q hq => hpp' _ (Set.range_comp_subset_range _ _ hq)) hm₁ hblocks'
      (horder table' htable')
  rw [sideOf_withSide] at h₂
  have hmerged : Histogram (cells₂ ∘ p ∘ Part.side d) (addr d) table₂
      (mergedSide (sideOf stat d) (sideOf stat' d)).blocks :=
    h₂.congr rfl (lookup_mergeBlocks _ _)
  have hentry := h₁.change hp (s := mergedSide (sideOf stat d) (sideOf stat' d)) hsame₂ (by
    rw [sideOf_withSide]
    rfl) hmerged
  rw [withSide_withSide] at hentry
  have hnumbers : (FileStat.of stat addr).setSide d
      (StatMalloc.mergeReadWrite ((FileStat.of stat addr).side d)
        ((FileStat.of stat' addr').side d)) = .of (withSide stat d
          { mergedSide (sideOf stat d) (sideOf stat' d) with
            blocks := (sideOf stat d).blocks }) addr := by
    rw [of_side, of_side, ← of_setSide]
    rfl
  refine ⟨m₂, cells₂, ?_, hm₂, ?_, hentry⟩
  · simp only [StatMalloc.mergeSide, access_ok Block.asStat hm hstat rfl, ok_bind,
      access_ok Block.asStat hm hstat' rfl, hnumbers, of_side_blocks, StatMalloc.mergeBlocks,
      hrun₂]
  · exact (hsame₂.mono (Set.compl_subset_compl.mpr (Set.range_comp_subset_range _ _))).trans hsame₁

/-- **An entry takes in another one,** under the names of its own blocks. -/
theorem Entry.merge (hp : Function.Injective p) (hpp' : ∀ q, p' q ∉ Set.range p)
    (hm : Named m cells) (h : Entry (cells ∘ p) file e addr stat)
    (h' : Entry (cells ∘ p') file e' addr' stat') (order : Order)
    (horder : ∀ d table, cells (p' (.side d .table)) = some (addr' d, .blocks table) →
      (order (addr' d) : Multiset BlockVisit) = table.entries) :
    ∃ m₁ m₂ m₃ cells₃, StatMalloc.mergeCounts m e.2 e'.2 = .ok m₁ ∧
      StatMalloc.mergeSide order .read m₁ e.2 e'.2 = .ok m₂ ∧
      StatMalloc.mergeSide order .write m₂ e.2 e'.2 = .ok m₃ ∧ Named m₃ cells₃ ∧
      Set.EqOn cells₃ cells (Set.range p)ᶜ ∧
      Entry (cells₃ ∘ p) file e addr (stat.merge stat') := by
  obtain ⟨m₁, cells₁, hrun₁, hm₁, hsame₁, h₁⟩ := h.mergeCounts hp hm h'
  obtain ⟨m₂, cells₂, hrun₂, hm₂, hsame₂, h₂⟩ := h₁.mergeSide hp hpp' hm₁ (h'.congr hpp' hsame₁)
    .read fun table htable => horder .read table ((hsame₁ (hpp' _)).symm.trans htable)
  have hsame := hsame₂.trans hsame₁
  obtain ⟨m₃, cells₃, hrun₃, hm₃, hsame₃, h₃⟩ := h₂.mergeSide hp hpp' hm₂ (h'.congr hpp' hsame)
    .write fun table htable => horder .write table ((hsame (hpp' _)).symm.trans htable)
  exact ⟨m₁, m₂, m₃, cells₃, hrun₁, hrun₂, hrun₃, hm₃, hsame₃.trans hsame, h₃⟩

end Merge

/-- **A new entry,** with an empty histogram on each side. -/
theorem statTableInsert_entry (hp : Function.Injective p) (hm : Named m cells)
    (hnone : ∀ q, cells (p q) = none) {table : HashTable} (htable : table.lookup file = none)
    (order : Order) :
    ∃ m' cells' e addr, statTableInsert order m table file = .ok (m', table.insert file e) ∧
      Named m' cells' ∧ Set.EqOn cells' cells (Set.range p)ᶜ ∧
      Entry (cells' ∘ p) file e addr Iotrace.initFileStat := by
  have hinj : ∀ {q q' : Part}, q ≠ q' → p q ≠ p q' := fun hne heq => hne (hp heq)
  let addr : Side → ℕ := fun d => match d with
    | .read => m.next + 2
    | .write => m.next + 3
  have h₁ := hm.alloc (x := p .name) (hnone _) (.chars file)
  have h₂ := h₁.alloc (x := p .stat)
    (by rw [Function.update_of_ne (hinj (by simp)), hnone]) .raw
  have h₃ := h₂.alloc (x := p (.side .read .table)) (by
    rw [Function.update_of_ne (hinj (by simp)), Function.update_of_ne (hinj (by simp)), hnone])
    (.blocks ∅)
  have h₄ := h₃.alloc (x := p (.side .write .table)) (by
    rw [Function.update_of_ne (hinj (by simp)), Function.update_of_ne (hinj (by simp)),
      Function.update_of_ne (hinj (by simp)), hnone]) (.blocks ∅)
  have h₅ := h₄.write (x := p .stat) (a := m.next + 1) (b := .raw) (by
    rw [Function.update_of_ne (hinj (by simp)), Function.update_of_ne (hinj (by simp)),
      Function.update_self]
    rfl) (.stat (.of Iotrace.initFileStat addr))
  refine ⟨_, _, (m.next, m.next + 1), addr, ?_, h₅, ?_, ?_⟩
  · rw [statTableInsert, gHashTableInsert]
    have hname := access_ok (x := p .name) (a := m.next) (b := .chars file) Block.asChars h₅
      (by
        rw [Function.update_of_ne (hinj (by simp)), Function.update_of_ne (hinj (by simp)),
          Function.update_of_ne (hinj (by simp)), Function.update_of_ne (hinj (by simp)),
          Function.update_self]) rfl
    refine (congrArg (· >>= _) hname).trans ?_
    rw [ok_bind, htable]
    rfl
  · exact ((((eqOn_update p _ _ _).trans (eqOn_update p _ _ _)).trans (eqOn_update p _ _ _)).trans
      (eqOn_update p _ _ _)).trans (eqOn_update p _ _ _)
  · simp only [Function.update_comp_eq_of_injective _ hp]
    refine ⟨?_, Function.update_self _ _ _, fun d => ⟨∅, ?_⟩⟩
    · simp only [ne_eq, reduceCtorEq, not_false_eq_true, Function.update_of_ne,
        Function.update_self]
    · have hblocks : (sideOf Iotrace.initFileStat d).blocks = ∅ := by cases d <;> rfl
      rw [hblocks]
      refine histogram_empty ?_ fun low => ?_
      · cases d <;> simp [addr]
      · constructor <;> simp [hnone]

/-- **An entry is freed** with all its blocks. -/
theorem Entry.free (hp : Function.Injective p) (hm : Named m cells)
    (h : Entry (cells ∘ p) file e addr stat) (order : Order)
    (horder : ∀ d table, cells (p (.side d .table)) = some (addr d, .blocks table) →
      (order (addr d) : Multiset BlockVisit) = table.entries) :
    ∃ m' cells', freeEntry order m ⟨file, e⟩ = .ok m' ∧ Named m' cells' ∧
      Cleared (Set.range p) cells cells' := by
  have hname : cells (p .name) = some (e.1, .chars file) := h.name
  have hstat : cells (p .stat) = some (e.2, .stat (.of stat addr)) := h.here
  -- a histogram is destroyed where nothing of it has been freed so far
  have hdestroy : ∀ d {S : Set X} {m₁ cells₁}, Named m₁ cells₁ → Cleared S cells cells₁ →
      (∀ q, p (.side d q) ∉ S) →
      ∃ m' cells', histogram.destroy m₁ (addr d) (order (addr d)) = .ok m' ∧ Named m' cells' ∧
        Cleared (S ∪ Set.range (p ∘ Part.side d)) cells cells' := by
    intro d S m₁ cells₁ hm₁ hclear hS
    obtain ⟨table, hside⟩ := h.side d
    have hkept : cells₁ ∘ (p ∘ Part.side d) = (cells ∘ p) ∘ Part.side d :=
      funext fun q => hclear.kept (hS q)
    obtain ⟨m', cells', hrun, hm', hclear'⟩ := (hside.congr hkept rfl).destroy
      (hp.comp (side_injective d)) hm₁ (horder d table hside.here)
    exact ⟨m', cells', hrun, hm', hclear.union hclear'⟩
  obtain ⟨m₁, cells₁, hrun₁, hm₁, hclear₁⟩ := free_ok hm hname
  obtain ⟨m₂, cells₂, hrun₂, hm₂, hclear₂⟩ := hdestroy .read hm₁ hclear₁ fun q heq => by
    cases hp heq
  obtain ⟨m₃, cells₃, hrun₃, hm₃, hclear₃⟩ := hdestroy .write hm₂ hclear₂ fun q => by
    rintro (heq | ⟨q', heq⟩) <;> cases hp heq
  have hstat₁ : cells₁ (p .stat) = some (e.2, .stat (.of stat addr)) := by
    refine (hclear₁.kept fun heq => ?_).trans hstat
    cases hp heq
  have hstat₃ : cells₃ (p .stat) = some (e.2, .stat (.of stat addr)) := by
    refine (hclear₃.kept ?_).trans hstat
    rintro ((heq | ⟨q', heq⟩) | ⟨q', heq⟩) <;> cases hp heq
  obtain ⟨m₄, cells₄, hrun₄, hm₄, hclear₄⟩ := free_ok hm₃ hstat₃
  refine ⟨m₄, cells₄, ?_, hm₄, (hclear₃.union hclear₄).mono ?_ ?_⟩
  · simp only [freeEntry, hrun₁, ok_bind, freeSingleFileStat,
      access_ok Block.asStat hm₁ hstat₁ rfl, FileStat.of, ReadWriteStat.of, hrun₂, hrun₃, hrun₄]
  · rintro x (((rfl | ⟨q, rfl⟩) | ⟨q, rfl⟩) | rfl)
    · exact ⟨_, rfl⟩
    · exact ⟨_, rfl⟩
    · exact ⟨_, rfl⟩
    · exact ⟨_, rfl⟩
  · rintro x ⟨q, rfl⟩ hnot
    refine absurd ?_ hnot
    match q with
    | .name => exact Or.inl (Or.inl (Or.inl rfl))
    | .side .read q => exact Or.inl (Or.inl (Or.inr ⟨q, rfl⟩))
    | .side .write q => exact Or.inl (Or.inr ⟨q, rfl⟩)
    | .stat => exact Or.inr rfl

omit [DecidableEq X] in
/-- What an iterator reads in an entry. -/
theorem Entry.read (hm : Named m cells) (h : Entry (cells ∘ p) file e addr stat) (order : Order)
    (horder : ∀ d table, cells (p (.side d .table)) = some (addr d, .blocks table) →
      (order (addr d) : Multiset BlockVisit) = table.entries) (t : FileStatTable) :
    readEntry order m t ⟨file, e⟩ = .ok (t.insert file stat) := by
  have hname : cells (p .name) = some (e.1, .chars file) := h.name
  have hstat : cells (p .stat) = some (e.2, .stat (.of stat addr)) := h.here
  have hread : ∀ d, readSide order m (.of (sideOf stat d) (addr d)) = .ok (sideOf stat d) := by
    intro d
    obtain ⟨table, hside⟩ := h.side d
    have hhere : cells (p (.side d .table)) = some (addr d, .blocks table) := hside.here
    have hblocks : Histogram (cells ∘ (p ∘ Part.side d)) (addr d) table
        (sideOf stat d).blocks := hside
    obtain ⟨blocks, hrun, hlook⟩ := hblocks.read Prod.mk hm (horder d table hhere)
    have hsame : blocks = (sideOf stat d).blocks := by
      refine Finmap.ext_lookup fun low => ?_
      rw [hlook]
      cases (sideOf stat d).blocks.lookup low <;> rfl
    rw [hsame] at hrun
    simp only [readSide, ReadWriteStat.of, hrun, ok_bind]
  have hr := hread .read
  have hw := hread .write
  simp only [sideOf] at hr hw
  simp only [readEntry, access_ok Block.asChars hm hname rfl, ok_bind,
    access_ok Block.asStat hm hstat rfl, FileStat.of, hr, hw]

end Entries

end StatMalloc

end Iotrace
