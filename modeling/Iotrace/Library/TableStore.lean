/-
# Tables in one heap

Any number of tables lie in one heap.  `Tables` has the heap and says where the tables are,
and a function on tables gets some of them (`Tables.get`) and puts one back
(`Tables.put`).  `Contents` does the same without a heap.

A `Storage` says how a table lies in memory: every block in use has a name, each
table has names of its own, and `Row` is about what is under them.  Tables in memory have
some contents (`Refines`) if each has its part of them and no other block is in use.  A
function that leaves the blocks of the other tables alone is then one on a single table
(`Does`, `put_agree`), and runs of such functions give, or fail with, what the runs on the
contents do (`Refines.run`); without tables no block is in use (`Refines.nothing_left`).
-/

import Iotrace.Library.Outcome
import Mathlib.Logic.Function.Basic

namespace TableStore

open Runs Outcome

variable {κ ι H C σ τ E A : Type}

/-! ### Getting and putting -/

/-- A heap, and the tables that have been made in it and not yet freed. -/
structure Tables (κ H σ : Type) where
  heap : H
  tables : κ → Option σ

/-- The contents of the tables. -/
abbrev Contents (κ τ : Type) := κ → Option τ

/-- A table, or the failure of one who uses a table that is not there. -/
def Tables.get (s : Tables κ H σ) (gone : E) (i : κ) : Except E σ :=
  match s.tables i with
  | none => .error gone
  | some table => .ok table

/-- The contents of a table, or the failure. -/
def Contents.get (T : Contents κ τ) (gone : E) (i : κ) : Except E τ :=
  match T i with
  | none => .error gone
  | some t => .ok t

section Put

variable [DecidableEq κ]

/-- A function leaves a heap, and a table in it. -/
def Tables.put (s : Tables κ H σ) (i : κ) (f : Except E (H × σ)) : Except E (Tables κ H σ) := do
  let (heap, table) ← f
  .ok ⟨heap, Function.update s.tables i (some table)⟩

/-- A function leaves a table. -/
def Contents.put (T : Contents κ τ) (i : κ) (g : Except E τ) : Except E (Contents κ τ) := do
  let t ← g
  .ok (Function.update T i (some t))

/-- A function leaves a heap without the table. -/
def Tables.drop (s : Tables κ H σ) (i : κ) (f : Except E H) : Except E (Tables κ H σ) := do
  let heap ← f
  .ok ⟨heap, Function.update s.tables i none⟩

/-- The table is gone. -/
def Contents.drop (T : Contents κ τ) (i : κ) : Except E (Contents κ τ) :=
  .ok (Function.update T i none)

end Put

/-! ### Tables and their contents -/

/-- How tables lie in a heap. -/
structure Storage (κ ι H C σ τ : Type) where
  /-- The blocks in use are those with names. -/
  Stored : H → (κ × ι → Option C) → Prop
  /-- A table whose contents are in the blocks with its names. -/
  Row : (κ × ι → Option C) → κ → σ → τ → Prop
  /-- The heap in which no block is in use. -/
  empty : H
  stored_empty : Stored empty fun _ => none
  row_congr : ∀ {cells cells' i table t}, Row cells i table t →
    (∀ q, cells' (i, q) = cells (i, q)) → Row cells' i table t

namespace Storage

variable {M : Storage κ ι H C σ τ} {cells cells' : κ × ι → Option C} {i : κ}

/-- A table and its contents; or there is none, and nothing under its names. -/
inductive Linked (M : Storage κ ι H C σ τ) (cells : κ × ι → Option C) (i : κ) :
    Option σ → Option τ → Prop where
  | table {table : σ} {t : τ} (row : M.Row cells i table t) :
      Linked M cells i (some table) (some t)
  | nothing (hnone : ∀ q, cells (i, q) = none) : Linked M cells i none none

/-- The tables in memory have the given contents, and no other block is in use. -/
def Refines (M : Storage κ ι H C σ τ) (s : Tables κ H σ) (T : Contents κ τ) : Prop :=
  ∃ cells, M.Stored s.heap cells ∧ ∀ i, M.Linked cells i (s.tables i) (T i)

/-- What a function does in memory to a table: it fails, as on the contents, or leaves a table
with the contents, and the blocks of the other tables. -/
def Does (M : Storage κ ι H C σ τ) (cells : κ × ι → Option C) (i : κ) :
    Except E (H × σ) → Except E τ → Prop :=
  Agree fun left t => ∃ cells', M.Stored left.1 cells' ∧ M.Row cells' i left.2 t ∧
    ∀ x, x.1 ≠ i → cells' x = cells x

theorem Does.of_ok {f : Except E (H × σ)} {heap : H} {table : σ} {t : τ}
    (hf : f = .ok (heap, table)) (hstored : M.Stored heap cells') (hrow : M.Row cells' i table t)
    (hothers : ∀ x, x.1 ≠ i → cells' x = cells x) : M.Does cells i f (.ok t) := by
  rw [hf]
  exact ⟨cells', hstored, hrow, hothers⟩

theorem Linked.congr {table : Option σ} {t : Option τ} (h : M.Linked cells i table t)
    (hsame : ∀ q, cells' (i, q) = cells (i, q)) : M.Linked cells' i table t := by
  cases h with
  | table row => exact .table (M.row_congr row hsame)
  | nothing hnone => exact .nothing fun q => (hsame q).trans (hnone q)

/-- Where there is no table, there is nothing under its names. -/
theorem Linked.free {table : Option σ} {t : Option τ} (h : M.Linked cells i table t)
    (htable : table = none) (q : ι) : cells (i, q) = none := by
  cases h with
  | table row => cases htable
  | nothing hnone => exact hnone q

/-- What holds of a table in memory and its contents, holds where there is one. -/
theorem Linked.rel {R : σ → τ → Prop} {table : Option σ} {t : Option τ}
    (h : M.Linked cells i table t)
    (hR : ∀ table' t', table = some table' → M.Row cells i table' t' → R table' t') :
    Option.Rel R table t := by
  cases h with
  | table row => exact .some (hR _ _ rfl row)
  | nothing hnone => exact .none

variable {s : Tables κ H σ} {T : Contents κ τ}

/-- **A table that is got** has the contents that are got. -/
theorem get_agree (hlinks : ∀ j, M.Linked cells j (s.tables j) (T j)) (gone : E) (i : κ) :
    Agree (fun table t => s.tables i = some table ∧ M.Row cells i table t) (s.get gone i)
      (T.get gone i) := by
  have hi := hlinks i
  rw [Tables.get, Contents.get]
  generalize s.tables i = table, T i = t at hi ⊢
  cases hi with
  | table row => exact ⟨rfl, row⟩
  | nothing hnone => exact rfl

variable [DecidableEq κ] {heap : H}

/-- One table changes, with its blocks. -/
theorem Refines.update {table : Option σ} {t : Option τ}
    (hlinks : ∀ j, M.Linked cells j (s.tables j) (T j)) (hstored : M.Stored heap cells')
    (hothers : ∀ x, x.1 ≠ i → cells' x = cells x) (hi : M.Linked cells' i table t) :
    M.Refines ⟨heap, Function.update s.tables i table⟩ (Function.update T i t) := by
  refine ⟨cells', hstored, fun j => ?_⟩
  simp only [Function.update_apply]
  split_ifs with hj
  · rw [hj]
    exact hi
  · exact (hlinks j).congr fun q => hothers (j, q) hj

/-- **A table that is put back** has the contents that are put back. -/
theorem put_agree (hlinks : ∀ j, M.Linked cells j (s.tables j) (T j)) {f : Except E (H × σ)}
    {g : Except E τ} (hdoes : M.Does cells i f g) : Agree M.Refines (s.put i f) (T.put i g) :=
  hdoes.bind fun _ _ ⟨_, hstored, hrow, hothers⟩ =>
    Refines.update hlinks hstored hothers (.table hrow)

/-- **A table that is freed,** with all its blocks. -/
theorem drop_agree (hlinks : ∀ j, M.Linked cells j (s.tables j) (T j)) {f : Except E H}
    (hf : f = .ok heap) (hstored : M.Stored heap cells')
    (hothers : ∀ x, x.1 ≠ i → cells' x = cells x) (hnone : ∀ q, cells' (i, q) = none) :
    Agree M.Refines (s.drop i f) (T.drop i : Except E (Contents κ τ)) := by
  rw [hf]
  exact Refines.update hlinks hstored hothers (.nothing hnone)

omit [DecidableEq κ]

/-! ### Runs -/

section Run

variable {step : Tables κ H σ → A → Except E (Tables κ H σ)}
  {step' : Contents κ τ → A → Except E (Contents κ τ)} {P : Tables κ H σ → A → Prop} {l : List A}

theorem empty_refines : M.Refines ⟨M.empty, fun _ => none⟩ fun _ => none :=
  ⟨fun _ => none, M.stored_empty, fun _ => .nothing fun _ => rfl⟩

/-- **A run in memory is a run on the contents.**  It fails where that one does, and with the
same; otherwise it ends with tables that have the contents that that one ends with. -/
theorem Refines.run
    (hstep : ∀ s T a, M.Refines s T → P s a → Agree M.Refines (step s a) (step' T a))
    (hl : Along step P ⟨M.empty, fun _ => none⟩ l) :
    (∀ e, l.foldlM step ⟨M.empty, fun _ => none⟩ = .error e ↔
        l.foldlM step' (fun _ => none) = .error e) ∧
      ∀ s, l.foldlM step ⟨M.empty, fun _ => none⟩ = .ok s →
        ∃ T, l.foldlM step' (fun _ => none) = .ok T ∧ M.Refines s T := by
  have hagree := Agree.run hstep empty_refines hl
  exact ⟨hagree.error_iff, fun s hs => hagree.of_ok hs⟩

/-- **Without tables no block is in use.** -/
theorem Refines.nothing_left (h : M.Refines s T) (hfreed : ∀ i, s.tables i = none) :
    M.Stored s.heap fun _ => none := by
  obtain ⟨cells, hstored, hlinks⟩ := h
  have hcells : cells = fun _ => none := funext fun x => (hlinks x.1).free (hfreed x.1) x.2
  rwa [hcells] at hstored

end Run

end Storage

end TableStore
