/-
# Hash tables in a heap

A hash table that owns its keys and values: the table, every key and every value are blocks
of a heap, the table has the addresses of the others, and frees them when an entry is
replaced or the table is destroyed.  A `Layout` says which blocks of the heap are tables,
keys and values, and what the table sees of a key (`hash`).

`Holds` says that a table is stored in the heap with given contents, under names for its
blocks (`TablePart`).  Other structures lie in the same heap under other names, and each
operation leaves them alone.  An iterator visits the entries in an order that is given.
-/

import Iotrace.Library.FiniteMap
import Iotrace.Library.NamedHeap
import Iotrace.Library.Runs

namespace HeapTable

open FiniteMap Runs

variable {E β L K V : Type}

/-- An access to a block, which fails with `bad` where there is none or it is not read as
what it holds. -/
def access {γ : Type} (bad : E) (as : β → Option γ) (m : Arena β) (a : ℕ) : Except E γ :=
  match (m.cell a).bind as with
  | some v => .ok v
  | none => .error bad

/-- A release, which fails with `bad` where there is no block. -/
def release (bad : E) (m : Arena β) (a : ℕ) : Except E (Arena β) :=
  if (m.cell a).isSome then .ok (m.free a) else .error bad

/-- Under what the table sees of a key, the addresses of the key and of the value. -/
abbrev Addresses (L : Type) := Finmap fun _ : L => ℕ × ℕ

/-- An entry as an iterator gives it. -/
abbrev Visit (L : Type) := Sigma fun _ : L => ℕ × ℕ

/-- The blocks of tables, and what is seen of a key. -/
structure Layout (E β L K V : Type) where
  bad : E
  ofTable : Addresses L → β
  ofKey : K → β
  ofValue : V → β
  asTable : β → Option (Addresses L)
  asKey : β → Option K
  asValue : β → Option V
  hash : K → L
  asTable_ofTable : ∀ t, asTable (ofTable t) = some t
  asKey_ofKey : ∀ k, asKey (ofKey k) = some k
  asValue_ofValue : ∀ v, asValue (ofValue v) = some v

namespace Layout

/-! ### Operations -/

section Operations

variable [DecidableEq L] (T : Layout E β L K V)

/-- A key and a value that have been allocated become an entry.  Where the key is there
already, the new key and the old value are freed. -/
def insert (m : Arena β) (a key value : ℕ) : Except E (Arena β) := do
  let table ← access T.bad T.asTable m a
  let k ← access T.bad T.asKey m key
  match table.lookup (T.hash k) with
  | some (oldKey, oldValue) => do
    let m ← release T.bad m key
    let m ← release T.bad m oldValue
    .ok (m.write a (T.ofTable (table.insert (T.hash k) (oldKey, value))))
  | none => .ok (m.write a (T.ofTable (table.insert (T.hash k) (key, value))))

/-- The address of the value under a key.  Where there is none, the key and a first value
are allocated and inserted. -/
def valueFor (m : Arena β) (a : ℕ) (k : K) (first : V) : Except E (Arena β × ℕ) := do
  let table ← access T.bad T.asTable m a
  match table.lookup (T.hash k) with
  | some (_, value) => .ok (m, value)
  | none => do
    let key := m.next
    let m := m.alloc (T.ofKey k)
    let value := m.next
    let m := m.alloc (T.ofValue first)
    let m ← T.insert m a key value
    .ok (m, value)

omit [DecidableEq L] in
/-- The value at an address is changed in place. -/
def update (m : Arena β) (value : ℕ) (f : V → V) : Except E (Arena β) := do
  let v ← access T.bad T.asValue m value
  .ok (m.write value (T.ofValue (f v)))

/-- An entry of another table is added to the one of the table at `a` under its key. -/
def mergeEntry (first : V) (add : V → V → V) (a : ℕ) (m : Arena β) (e : Visit L) :
    Except E (Arena β) := do
  let k ← access T.bad T.asKey m e.2.1
  let (m, value) ← T.valueFor m a k first
  let v ← access T.bad T.asValue m e.2.2
  T.update m value fun v' => add v' v

/-- The table at `a` takes in the one at `a'`. -/
def merge (first : V) (add : V → V → V) (m : Arena β) (a a' : ℕ) (visits : List (Visit L)) :
    Except E (Arena β) := do
  let _ ← access T.bad T.asTable m a'
  visits.foldlM (T.mergeEntry first add a) m

omit [DecidableEq L] in
/-- The key and the value of an entry are freed. -/
def freeEntry (m : Arena β) (e : Visit L) : Except E (Arena β) := do
  let m ← release T.bad m e.2.1
  release T.bad m e.2.2

omit [DecidableEq L] in
/-- The table at `a` is freed with all its entries. -/
def destroy (m : Arena β) (a : ℕ) (visits : List (Visit L)) : Except E (Arena β) := do
  let _ ← access T.bad T.asTable m a
  let m ← visits.foldlM T.freeEntry m
  release T.bad m a

variable {W : Type}

/-- What an iterator reads at an entry. -/
def readEntry (g : K → V → W) (m : Arena β) (acc : Finmap fun _ : L => W) (e : Visit L) :
    Except E (Finmap fun _ : L => W) := do
  let k ← access T.bad T.asKey m e.2.1
  let v ← access T.bad T.asValue m e.2.2
  .ok (acc.insert e.1 (g k v))

/-- What iterators read in the table at `a`. -/
def read (g : K → V → W) (m : Arena β) (a : ℕ) (visits : List (Visit L)) :
    Except E (Finmap fun _ : L => W) := do
  let _ ← access T.bad T.asTable m a
  visits.foldlM (T.readEntry g m) ∅

end Operations

end Layout

/-! ### Names of blocks -/

/-- The blocks of a table. -/
inductive TablePart (L : Type) where
  | table
  | key (l : L)
  | value (l : L)
  deriving DecidableEq

section Access

variable {X : Type} {m : Arena β} {cells : X → Option (ℕ × β)} {x : X} {a : ℕ} {b : β}

theorem access_named {γ : Type} (bad : E) (as : β → Option γ) {v : γ} (hm : Named m cells)
    (hx : cells x = some (a, b)) (hb : as b = some v) : access bad as m a = .ok v := by
  rw [access, hm.held x a b hx, Option.bind_some, hb]

/-- A release, with what becomes of the names. -/
theorem release_named [DecidableEq X] (bad : E) (hm : Named m cells)
    (hx : cells x = some (a, b)) :
    ∃ m' cells', release bad m a = .ok m' ∧ Named m' cells' ∧ Cleared {x} cells cells' := by
  refine ⟨m.free a, _, ?_, hm.free hx, Cleared.one cells x⟩
  rw [release, hm.held x a b hx]
  rfl

end Access

namespace Layout

variable (T : Layout E β L K V)

/-- An entry in the heap: its addresses, and its key and value. -/
def HoldsEntry (c : TablePart L → Option (ℕ × β)) (l : L) : Option (ℕ × ℕ) → Option (K × V) → Prop
  | some e, some (k, v) => c (.key l) = some (e.1, T.ofKey k) ∧
      c (.value l) = some (e.2, T.ofValue v) ∧ T.hash k = l
  | none, none => c (.key l) = none ∧ c (.value l) = none
  | _, _ => False

/-- A table in the heap, with its address, its addresses and its contents. -/
structure Holds [DecidableEq L] (c : TablePart L → Option (ℕ × β)) (a : ℕ) (table : Addresses L)
    (content : L → Option (K × V)) : Prop where
  here : c .table = some (a, T.ofTable table)
  entry : ∀ l, T.HoldsEntry c l (table.lookup l) (content l)

section Holds

variable {T} [DecidableEq L] {c c' : TablePart L → Option (ℕ × β)} {a : ℕ} {table : Addresses L}
  {content content' : L → Option (K × V)} {l : L}

/-- An empty table. -/
theorem Holds.empty (hhere : c .table = some (a, T.ofTable ∅))
    (hnone : ∀ l, c (.key l) = none ∧ c (.value l) = none) : T.Holds c a ∅ fun _ => none :=
  ⟨hhere, fun l => by rw [Finmap.lookup_empty]; exact hnone l⟩

theorem Holds.congr (h : T.Holds c a table content) (hc : c' = c) (hcontent : content' = content) :
    T.Holds c' a table content' := by
  rw [hc, hcontent]
  exact h

/-- An entry that is there, with its contents. -/
theorem Holds.of_lookup (h : T.Holds c a table content) {e : ℕ × ℕ}
    (he : table.lookup l = some e) :
    ∃ k v, content l = some (k, v) ∧ c (.key l) = some (e.1, T.ofKey k) ∧
      c (.value l) = some (e.2, T.ofValue v) ∧ T.hash k = l := by
  have hentry := h.entry l
  rw [he] at hentry
  match content l, hentry with
  | some (k, v), ⟨hkey, hvalue, hhash⟩ => exact ⟨k, v, rfl, hkey, hvalue, hhash⟩
  | none, hentry => exact hentry.elim

theorem Holds.of_lookup_none (h : T.Holds c a table content) (he : table.lookup l = none) :
    content l = none ∧ c (.key l) = none ∧ c (.value l) = none := by
  have hentry := h.entry l
  rw [he] at hentry
  match content l, hentry with
  | some (k, v), hentry => exact hentry.elim
  | none, ⟨hkey, hvalue⟩ => exact ⟨rfl, hkey, hvalue⟩

/-- **One entry changes.** -/
theorem Holds.change (h : T.Holds c a table content) {e : ℕ × ℕ} {k : K} {v : V}
    (hhash : T.hash k = l) (hhere : c' .table = some (a, T.ofTable (table.insert l e)))
    (hkey : c' (.key l) = some (e.1, T.ofKey k)) (hvalue : c' (.value l) = some (e.2, T.ofValue v))
    (hothers : ∀ l', l' ≠ l → c' (.key l') = c (.key l') ∧ c' (.value l') = c (.value l')) :
    T.Holds c' a (table.insert l e) (Function.update content l (some (k, v))) where
  here := hhere
  entry l' := by
    rw [lookup_insert_eq, Function.update_apply]
    by_cases hl : l' = l
    · rw [if_pos hl, if_pos hl, hl]
      exact ⟨hkey, hvalue, hhash⟩
    · rw [if_neg hl, if_neg hl]
      obtain ⟨hk, hv⟩ := hothers l' hl
      have hentry := h.entry l'
      match table.lookup l', content l', hentry with
      | some _, some _, hentry => exact ⟨hk.trans hentry.1, hv.trans hentry.2.1, hentry.2.2⟩
      | none, none, hentry => exact ⟨hk.trans hentry.1, hv.trans hentry.2⟩

end Holds

/-! ### What the operations do -/

/-- An entry after `f` has changed its value, made with a first value where it is missing. -/
def added (k : K) (first : V) (f : V → V) : Option (K × V) → K × V
  | some (k', v) => (k', f v)
  | none => (k, f first)

variable {T} [DecidableEq L] {X : Type} [DecidableEq X] {p : TablePart L → X} {m : Arena β}
  {cells : X → Option (ℕ × β)} {a : ℕ} {table : Addresses L} {content : L → Option (K × V)}

/-- **A value changes in place.** -/
theorem Holds.update (hp : Function.Injective p) (hm : Named m cells)
    (h : T.Holds (cells ∘ p) a table content) {l : L} {e : ℕ × ℕ} {k : K} {v : V}
    (he : table.lookup l = some e) (hl : content l = some (k, v)) (f : V → V) :
    ∃ m' cells', T.update m e.2 f = .ok m' ∧ Named m' cells' ∧
      Set.EqOn cells' cells (Set.range p)ᶜ ∧
      T.Holds (cells' ∘ p) a table (Function.update content l (some (k, f v))) := by
  obtain ⟨k', v', hl', hkey, hvalue, hhash⟩ := h.of_lookup he
  obtain ⟨rfl, rfl⟩ := Prod.mk.inj (Option.some.inj (hl'.symm.trans hl))
  have hcell : cells (p (.value l)) = some (e.2, T.ofValue v') := hvalue
  refine ⟨_, _, ?_, hm.write hcell (T.ofValue (f v')), eqOn_update p _ cells _, ?_⟩
  · rw [Layout.update, access_named T.bad T.asValue hm hcell (T.asValue_ofValue v')]
    rfl
  · rw [Function.update_comp_eq_of_injective cells hp]
    have hsame : table.insert l e = table := insert_eq_self_iff.mpr he
    rw [← hsame]
    refine h.change hhash ?_ ?_ (Function.update_self _ _ _) fun l' hne => ⟨?_, ?_⟩
    · rw [Function.update_of_ne (by simp), hsame]
      exact h.here
    · rw [Function.update_of_ne (by simp)]
      exact hkey
    · rw [Function.update_of_ne (by simp)]
    · rw [Function.update_of_ne (by simpa using hne)]

/-- **The value under a key** is found or made, so that a change of it is `added`. -/
theorem Holds.valueFor (hp : Function.Injective p) (hm : Named m cells)
    (h : T.Holds (cells ∘ p) a table content) (k : K) (first : V) :
    ∃ m' cells' table' content' e k' v, T.valueFor m a k first = .ok (m', e.2) ∧ Named m' cells' ∧
      Set.EqOn cells' cells (Set.range p)ᶜ ∧ T.Holds (cells' ∘ p) a table' content' ∧
      table'.lookup (T.hash k) = some e ∧ content' (T.hash k) = some (k', v) ∧
      ∀ f : V → V, Function.update content' (T.hash k) (some (k', f v)) =
        Function.update content (T.hash k) (some (added k first f (content (T.hash k)))) := by
  have hhere : cells (p .table) = some (a, T.ofTable table) := h.here
  have htable := access_named T.bad T.asTable hm hhere (T.asTable_ofTable table)
  cases he : table.lookup (T.hash k) with
  | some e =>
      obtain ⟨k', v, hl, -⟩ := h.of_lookup he
      refine ⟨m, cells, table, content, e, k', v, ?_, hm, fun _ _ => rfl, h, he, hl, fun f => ?_⟩
      · simp only [Layout.valueFor, htable, bind, Except.bind, he]
      · rw [hl]
        rfl
  | none =>
      obtain ⟨hl, hkey, hvalue⟩ := h.of_lookup_none he
      have hinj : ∀ {q q' : TablePart L}, q ≠ q' → p q ≠ p q' := fun hne heq => hne (hp heq)
      -- the key, the value and the entry in the table
      have h₁ := hm.alloc (x := p (.key (T.hash k))) hkey (T.ofKey k)
      have h₂ := h₁.alloc (x := p (.value (T.hash k)))
        (by rw [Function.update_of_ne (hinj (by simp))]; exact hvalue) (T.ofValue first)
      have hkey₂ : Function.update (Function.update cells (p (.key (T.hash k)))
          (some (m.next, T.ofKey k))) (p (.value (T.hash k)))
          (some (m.next + 1, T.ofValue first)) (p (.key (T.hash k))) =
          some (m.next, T.ofKey k) := by
        rw [Function.update_of_ne (hinj (by simp)), Function.update_self]
      have hhere₂ : Function.update (Function.update cells (p (.key (T.hash k)))
          (some (m.next, T.ofKey k))) (p (.value (T.hash k)))
          (some (m.next + 1, T.ofValue first)) (p .table) = some (a, T.ofTable table) := by
        rw [Function.update_of_ne (hinj (by simp)), Function.update_of_ne (hinj (by simp)), hhere]
      have htable₂ := access_named T.bad T.asTable h₂ hhere₂ (T.asTable_ofTable table)
      have hk₂ := access_named T.bad T.asKey h₂ hkey₂ (T.asKey_ofKey k)
      refine ⟨_, _, table.insert (T.hash k) (m.next, m.next + 1),
        Function.update content (T.hash k) (some (k, first)), (m.next, m.next + 1), k, first, ?_,
        h₂.write hhere₂ (T.ofTable (table.insert (T.hash k) (m.next, m.next + 1))), ?_, ?_,
        Finmap.lookup_insert _, Function.update_self _ _ _, fun f => ?_⟩
      · simp only [Layout.valueFor, htable, bind, Except.bind, he, Layout.insert,
          Arena.alloc_next, htable₂, hk₂]
      · exact ((eqOn_update p _ _ _).trans (eqOn_update p _ _ _)).trans (eqOn_update p _ _ _)
      · simp only [Function.update_comp_eq_of_injective _ hp]
        refine h.change rfl ?_ ?_ ?_ fun l hne => ⟨?_, ?_⟩
        · exact Function.update_self _ _ _
        · rw [Function.update_of_ne (by simp), Function.update_of_ne (by simp),
            Function.update_self]
        · rw [Function.update_of_ne (by simp), Function.update_self]
          rfl
        · rw [Function.update_of_ne (by simp), Function.update_of_ne (by simp),
            Function.update_of_ne (by simpa using hne)]
        · rw [Function.update_of_ne (by simp), Function.update_of_ne (by simpa using hne),
            Function.update_of_ne (by simp)]
      · rw [hl, Function.update_idem]
        rfl

/-- **A value is found or made, and changed.** -/
theorem Holds.add (hp : Function.Injective p) (hm : Named m cells)
    (h : T.Holds (cells ∘ p) a table content) (k : K) (first : V) (f : V → V) :
    ∃ m₁ cells₁ value m' cells' table', T.valueFor m a k first = .ok (m₁, value) ∧
      Named m₁ cells₁ ∧ Set.EqOn cells₁ cells (Set.range p)ᶜ ∧
      T.update m₁ value f = .ok m' ∧ Named m' cells' ∧ Set.EqOn cells' cells (Set.range p)ᶜ ∧
      T.Holds (cells' ∘ p) a table'
        (Function.update content (T.hash k) (some (added k first f (content (T.hash k))))) := by
  obtain ⟨m₁, cells₁, table₁, content₁, e, k', v, hvalue, hm₁, hsame₁, h₁, he, hl, hadd⟩ :=
    h.valueFor hp hm k first
  obtain ⟨m', cells', hrun, hm', hsame', h'⟩ := h₁.update hp hm₁ he hl f
  rw [hadd] at h'
  exact ⟨m₁, cells₁, e.2, m', cells', table₁, hvalue, hm₁, hsame₁, hrun, hm',
    hsame'.trans hsame₁, h'⟩

/-- The contents of a table that has taken in others. -/
def mergedContent (first : V) (add : V → V → V) (content content' : L → Option (K × V)) (l : L) :
    Option (K × V) :=
  match content' l with
  | some (k, v) => some (added k first (fun v' => add v' v) (content l))
  | none => content l

/-- A table that takes in another one, for the entries of this that are visited. -/
theorem Holds.foldlM_merge {p' : TablePart L → X} {a' : ℕ} {table' : Addresses L}
    {content' : L → Option (K × V)} (first : V) (add : V → V → V) (hp : Function.Injective p)
    (hpp' : ∀ q, p' q ∉ Set.range p) (hm : Named m cells)
    (h : T.Holds (cells ∘ p) a table content) (h' : T.Holds (cells ∘ p') a' table' content')
    {visits : List (Visit L)} (hvisits : Visits table' visits) :
    ∃ m₁ cells₁ table₁ content₁, visits.foldlM (T.mergeEntry first add a) m = .ok m₁ ∧
      Named m₁ cells₁ ∧ Set.EqOn cells₁ cells (Set.range p)ᶜ ∧
      T.Holds (cells₁ ∘ p) a table₁ content₁ ∧
      ∀ l, content₁ l = if l ∈ visits.keys then mergedContent first add content content' l
        else content l := by
  induction visits generalizing m cells table content with
  | nil =>
      exact ⟨m, cells, table, content, rfl, hm, fun _ _ => rfl, h,
        fun l => (if_neg List.not_mem_nil).symm⟩
  | cons e visits ih =>
      obtain ⟨k, v, hl, hkey, hvalue, hhash⟩ := h'.of_lookup (hvisits.here e List.mem_cons_self)
      have hk : cells (p' (.key e.1)) = some (e.2.1, T.ofKey k) := hkey
      obtain ⟨m₁, cells₁, value, m₂, cells₂, table₂, hrun₁, hm₁, hsame₁, hrun₂, hm₂, hsame₂, h₂⟩ :=
        h.add hp hm k first fun v' => add v' v
      have hv₁ : cells₁ (p' (.value e.1)) = some (e.2.2, T.ofValue v) :=
        (hsame₁ (hpp' _)).trans hvalue
      have hcells₂ : cells₂ ∘ p' = cells ∘ p' := funext fun q => hsame₂ (hpp' q)
      have hstep : T.mergeEntry first add a m e = .ok m₂ := by
        simp only [Layout.mergeEntry, bind, Except.bind, hrun₁, hrun₂,
          access_named T.bad T.asKey hm hk (T.asKey_ofKey k),
          access_named T.bad T.asValue hm₁ hv₁ (T.asValue_ofValue v)]
      obtain ⟨m₃, cells₃, table₃, content₃, hrun₃, hm₃, hsame₃, h₃, hlook₃⟩ :=
        ih hm₂ h₂ (h'.congr hcells₂ rfl) hvisits.tail
      refine ⟨m₃, cells₃, table₃, content₃, foldlM_cons_ok.mpr ⟨m₂, hstep, hrun₃⟩, hm₃,
        hsame₃.trans hsame₂, h₃, fun l => ?_⟩
      rw [hlook₃, List.keys_cons, hhash]
      by_cases hl' : l = e.1
      · rw [hl', if_neg hvisits.head_notMem, if_pos List.mem_cons_self, Function.update_self,
          mergedContent, hl]
      · simp only [List.mem_cons, hl', false_or, mergedContent]
        rw [Function.update_of_ne hl']

/-- **A table takes in another one** that is visited as a whole. -/
theorem Holds.merge {p' : TablePart L → X} {a' : ℕ} {table' : Addresses L}
    {content' : L → Option (K × V)} (first : V) (add : V → V → V) (hp : Function.Injective p)
    (hpp' : ∀ q, p' q ∉ Set.range p) (hm : Named m cells)
    (h : T.Holds (cells ∘ p) a table content) (h' : T.Holds (cells ∘ p') a' table' content')
    {visits : List (Visit L)} (hvisits : (visits : Multiset (Visit L)) = table'.entries) :
    ∃ m₁ cells₁ table₁, T.merge first add m a a' visits = .ok m₁ ∧ Named m₁ cells₁ ∧
      Set.EqOn cells₁ cells (Set.range p)ᶜ ∧
      T.Holds (cells₁ ∘ p) a table₁ (mergedContent first add content content') := by
  obtain ⟨hvisits, hall⟩ := Visits.of_entries hvisits
  obtain ⟨m₁, cells₁, table₁, content₁, hrun, hm₁, hsame₁, h₁, hlook⟩ :=
    h.foldlM_merge first add hp hpp' hm h' hvisits
  have hhere : cells (p' .table) = some (a', T.ofTable table') := h'.here
  have hcontent : mergedContent first add content content' = content₁ := by
    funext l
    rw [hlook]
    split_ifs with hl
    · rfl
    · rw [hall, Option.not_isSome_iff_eq_none] at hl
      rw [mergedContent, (h'.of_lookup_none hl).1]
  refine ⟨m₁, cells₁, table₁, ?_, hm₁, hsame₁, h₁.congr rfl hcontent⟩
  rw [Layout.merge, access_named T.bad T.asTable hm hhere (T.asTable_ofTable table')]
  exact hrun

omit [DecidableEq L] in
/-- The entries that are visited are freed. -/
theorem freeEntries_named (hp : Function.Injective p) (hm : Named m cells)
    {visits : List (Visit L)} (hnodup : visits.NodupKeys)
    (hhere : ∀ e ∈ visits, ∃ b b', cells (p (.key e.1)) = some (e.2.1, b) ∧
      cells (p (.value e.1)) = some (e.2.2, b')) :
    ∃ m' cells', visits.foldlM T.freeEntry m = .ok m' ∧ Named m' cells' ∧
      Cleared {x | ∃ l ∈ visits.keys, x = p (.key l) ∨ x = p (.value l)} cells cells' := by
  induction visits generalizing m cells with
  | nil =>
      exact ⟨m, cells, rfl, hm, Cleared.refl.mono (Set.empty_subset _)
        fun _ ⟨_, hl, _⟩ => absurd hl List.not_mem_nil⟩
  | cons e visits ih =>
      obtain ⟨b, b', hkey, hvalue⟩ := hhere e List.mem_cons_self
      obtain ⟨hnot, hnodup⟩ := List.nodupKeys_cons.mp hnodup
      obtain ⟨m₁, cells₁, hrun₁, hm₁, hclear₁⟩ := release_named T.bad hm hkey
      have hne : p (.value e.1) ∉ ({p (.key e.1)} : Set X) := fun heq => by cases hp heq
      obtain ⟨m₂, cells₂, hrun₂, hm₂, hclear₂⟩ :=
        release_named T.bad hm₁ ((hclear₁.kept hne).trans hvalue)
      have hclear := hclear₁.union hclear₂
      have hhere₂ : ∀ e' ∈ visits, ∃ b b', cells₂ (p (.key e'.1)) = some (e'.2.1, b) ∧
          cells₂ (p (.value e'.1)) = some (e'.2.2, b') := by
        intro e' he'
        have hne : e'.1 ≠ e.1 := fun heq => hnot (heq ▸ List.mem_keys_of_mem he')
        obtain ⟨b, b', hb, hb'⟩ := hhere e' (List.mem_cons_of_mem e he')
        refine ⟨b, b', (hclear.kept ?_).trans hb, (hclear.kept ?_).trans hb'⟩
        · rintro (heq | heq)
          · exact hne (TablePart.key.inj (hp heq))
          · cases hp heq
        · rintro (heq | heq)
          · cases hp heq
          · exact hne (TablePart.value.inj (hp heq))
      obtain ⟨m', cells', hrun', hm', hclear'⟩ := ih hm₂ hnodup hhere₂
      have hstep : T.freeEntry m e = .ok m₂ := by
        simp only [Layout.freeEntry, bind, Except.bind, hrun₁, hrun₂]
      refine ⟨m', cells', foldlM_cons_ok.mpr ⟨m₂, hstep, hrun'⟩, hm',
        (hclear.union hclear').mono ?_ ?_⟩
      · rintro x ((rfl | rfl) | ⟨l, hl, hx⟩)
        · exact ⟨e.1, List.mem_cons_self, Or.inl rfl⟩
        · exact ⟨e.1, List.mem_cons_self, Or.inr rfl⟩
        · exact ⟨l, List.mem_cons_of_mem _ hl, hx⟩
      · rintro x ⟨l, hl, hx⟩ hnot
        rcases List.mem_cons.mp hl with rfl | hl
        · exact absurd (Or.inl hx) hnot
        · exact absurd (Or.inr ⟨l, hl, hx⟩) hnot

/-- **A table is freed** with all its blocks. -/
theorem Holds.destroy (hp : Function.Injective p) (hm : Named m cells)
    (h : T.Holds (cells ∘ p) a table content) {visits : List (Visit L)}
    (hvisits : (visits : Multiset (Visit L)) = table.entries) :
    ∃ m' cells', T.destroy m a visits = .ok m' ∧ Named m' cells' ∧
      Cleared (Set.range p) cells cells' := by
  obtain ⟨hvisits, hall⟩ := Visits.of_entries hvisits
  have hhere : cells (p .table) = some (a, T.ofTable table) := h.here
  have hentries : ∀ e ∈ visits, ∃ b b', cells (p (.key e.1)) = some (e.2.1, b) ∧
      cells (p (.value e.1)) = some (e.2.2, b') := by
    intro e he
    obtain ⟨k, v, -, hkey, hvalue, -⟩ := h.of_lookup (hvisits.here e he)
    exact ⟨_, _, hkey, hvalue⟩
  obtain ⟨m₁, cells₁, hrun₁, hm₁, hclear₁⟩ :=
    freeEntries_named (T := T) hp hm hvisits.nodup hentries
  have hnot : p .table ∉ {x | ∃ l ∈ visits.keys, x = p (.key l) ∨ x = p (.value l)} := by
    rintro ⟨l, -, heq | heq⟩ <;> cases hp heq
  obtain ⟨m', cells', hrun', hm', hclear'⟩ :=
    release_named T.bad hm₁ ((hclear₁.kept hnot).trans hhere)
  refine ⟨m', cells', ?_, hm', (hclear₁.union hclear').mono ?_ ?_⟩
  · simp only [Layout.destroy, bind, Except.bind,
      access_named T.bad T.asTable hm hhere (T.asTable_ofTable table), hrun₁, hrun']
  · rintro x (⟨l, -, rfl | rfl⟩ | rfl)
    · exact ⟨_, rfl⟩
    · exact ⟨_, rfl⟩
    · exact ⟨_, rfl⟩
  · -- what has not been freed was not there
    rintro x ⟨q, rfl⟩ hnot
    cases q with
    | table => exact absurd (Or.inr rfl) hnot
    | key l =>
        have hl : l ∉ visits.keys := fun hl => hnot (Or.inl ⟨l, hl, Or.inl rfl⟩)
        rw [hall, Option.not_isSome_iff_eq_none] at hl
        exact (h.of_lookup_none hl).2.1
    | value l =>
        have hl : l ∉ visits.keys := fun hl => hnot (Or.inl ⟨l, hl, Or.inr rfl⟩)
        rw [hall, Option.not_isSome_iff_eq_none] at hl
        exact (h.of_lookup_none hl).2.2

omit [DecidableEq X] in
/-- **Iterators read the contents.** -/
theorem Holds.read {W : Type} (g : K → V → W) (hm : Named m cells)
    (h : T.Holds (cells ∘ p) a table content) {visits : List (Visit L)}
    (hvisits : (visits : Multiset (Visit L)) = table.entries) :
    ∃ t, T.read g m a visits = .ok t ∧
      ∀ l, t.lookup l = (content l).map fun kv => g kv.1 kv.2 := by
  obtain ⟨hvisits, hall⟩ := Visits.of_entries hvisits
  have hhere : cells (p .table) = some (a, T.ofTable table) := h.here
  have hread : ∀ (visits : List (Visit L)), Visits table visits →
      ∀ acc : Finmap fun _ : L => W, ∃ t, visits.foldlM (T.readEntry g m) acc = .ok t ∧
        ∀ l, t.lookup l = if l ∈ visits.keys then (content l).map fun kv => g kv.1 kv.2
          else acc.lookup l := by
    intro visits hvisits
    induction visits with
    | nil => exact fun acc => ⟨acc, rfl, fun l => (if_neg List.not_mem_nil).symm⟩
    | cons e visits ih =>
        intro acc
        obtain ⟨k, v, hl, hkey, hvalue, -⟩ := h.of_lookup (hvisits.here e List.mem_cons_self)
        have hk : cells (p (.key e.1)) = some (e.2.1, T.ofKey k) := hkey
        have hv : cells (p (.value e.1)) = some (e.2.2, T.ofValue v) := hvalue
        have hstep : T.readEntry g m acc e = .ok (acc.insert e.1 (g k v)) := by
          simp only [Layout.readEntry, bind, Except.bind,
            access_named T.bad T.asKey hm hk (T.asKey_ofKey k),
            access_named T.bad T.asValue hm hv (T.asValue_ofValue v)]
        obtain ⟨t, hrun, hlook⟩ := ih hvisits.tail (acc.insert e.1 (g k v))
        refine ⟨t, foldlM_cons_ok.mpr ⟨_, hstep, hrun⟩, fun l => ?_⟩
        rw [hlook, List.keys_cons, lookup_insert_eq]
        by_cases hl' : l = e.1
        · rw [hl', if_neg hvisits.head_notMem, if_pos rfl, if_pos List.mem_cons_self, hl,
            Option.map_some]
        · simp only [List.mem_cons, hl', false_or, if_false]
  obtain ⟨t, hrun, hlook⟩ := hread visits hvisits ∅
  refine ⟨t, ?_, fun l => ?_⟩
  · rw [Layout.read, access_named T.bad T.asTable hm hhere (T.asTable_ofTable table)]
    exact hrun
  · rw [hlook]
    split_ifs with hl
    · rfl
    · rw [hall, Option.not_isSome_iff_eq_none] at hl
      rw [Finmap.lookup_empty, (h.of_lookup_none hl).1, Option.map_none]

end Layout

end HeapTable
