/-
# Trees, and the events that write them

A document is a tree of arrays and of objects with named members.  A program that writes
one does so event by event: a container is opened, its items follow, each member of an
object after its name, and the container is closed.  `Tree.events` is the row of events
of a tree.

`Reader` is the machine that puts the tree together again.  It keeps the containers that
are open, the innermost first, and refuses an event that has no place where it comes:
a value without a name in an object, the end of a container that is not the innermost
one, anything after the whole tree.  The events of a tree are never refused, and what
they leave in the machine is the tree (`read_events`).
-/

import Mathlib.Data.List.Basic

namespace EventTree

variable {σ α : Type}

/-- What is written of a tree in one go. -/
inductive Event (σ α : Type) where
  | beginObject
  | memberName (name : σ)
  | endObject
  | beginArray
  | endArray
  | value (v : α)

/-- A document with names in `σ` and plain values in `α`. -/
inductive Tree (σ α : Type) where
  | value (v : α)
  | array (items : List (Tree σ α))
  | object (members : List (σ × Tree σ α))

mutual

/-- The events that write a tree. -/
def Tree.events : Tree σ α → List (Event σ α)
  | .value v => [.value v]
  | .array items => .beginArray :: (itemEvents items ++ [.endArray])
  | .object members => .beginObject :: (memberEvents members ++ [.endObject])

/-- The events that write the items of an array. -/
def itemEvents : List (Tree σ α) → List (Event σ α)
  | [] => []
  | t :: items => t.events ++ itemEvents items

/-- The events that write the members of an object. -/
def memberEvents : List (σ × Tree σ α) → List (Event σ α)
  | [] => []
  | (name, t) :: members => .memberName name :: (t.events ++ memberEvents members)

end

theorem itemEvents_eq_flatMap (items : List (Tree σ α)) :
    itemEvents items = items.flatMap Tree.events := by
  induction items with
  | nil => rfl
  | cons t items ih => rw [itemEvents, ih, List.flatMap_cons]

/-- The member of an object with a given name. -/
def Tree.member [DecidableEq σ] (name : σ) : Tree σ α → Option (Tree σ α)
  | .object members => (members.find? fun m => m.1 = name).map Prod.snd
  | _ => none

/-- The items of an array. -/
def Tree.items : Tree σ α → Option (List (Tree σ α))
  | .array items => some items
  | _ => none

/-! ### Reading -/

/-- A container that is open, with what has been written into it. -/
inductive Container (σ α : Type) where
  | array (items : List (Tree σ α))
  | object (members : List (σ × Tree σ α))
  /-- An object in which a name waits for its value. -/
  | member (members : List (σ × Tree σ α)) (name : σ)

/-- The whole tree, if it is there already, and the open containers. -/
structure Reader (σ α : Type) where
  root : Option (Tree σ α)
  opened : List (Container σ α)

namespace Reader

/-- Before the first event. -/
def start : Reader σ α := ⟨none, []⟩

/-- A tree has been completed. -/
def add (s : Reader σ α) (t : Tree σ α) : Option (Reader σ α) :=
  match s.opened with
  | [] => if s.root.isNone then some { s with root := some t } else none
  | .array items :: opened => some { s with opened := .array (items ++ [t]) :: opened }
  | .member members name :: opened =>
    some { s with opened := .object (members ++ [(name, t)]) :: opened }
  | .object _ :: _ => none

/-- A container is opened, where a tree may stand. -/
def enter (s : Reader σ α) (c : Container σ α) : Option (Reader σ α) :=
  match s.opened with
  | [] => if s.root.isNone then some { s with opened := [c] } else none
  | .object _ :: _ => none
  | opened => some { s with opened := c :: opened }

/-- One event. -/
def feed (s : Reader σ α) : Event σ α → Option (Reader σ α)
  | .beginObject => s.enter (.object [])
  | .beginArray => s.enter (.array [])
  | .value v => s.add (.value v)
  | .memberName name =>
    match s.opened with
    | .object members :: opened => some { s with opened := .member members name :: opened }
    | _ => none
  | .endObject =>
    match s.opened with
    | .object members :: opened => { s with opened }.add (.object members)
    | _ => none
  | .endArray =>
    match s.opened with
    | .array items :: opened => { s with opened }.add (.array items)
    | _ => none

end Reader

/-- The tree that a row of events writes, if no event is refused and nothing stays open. -/
def read (events : List (Event σ α)) : Option (Tree σ α) := do
  let s ← events.foldlM Reader.feed Reader.start
  if s.opened.isEmpty then s.root else none

namespace Reader

/-- A container is opened where its tree can be added in the end, and nowhere else. -/
theorem enter_cases (s : Reader σ α) (c : Container σ α) (t : Tree σ α) :
    s.enter c = none ∧ s.add t = none ∨
      s.enter c = some { s with opened := c :: s.opened } := by
  obtain ⟨root, opened⟩ := s
  unfold enter add
  match opened with
  | [] =>
      cases root with
      | none => exact Or.inr rfl
      | some t' => exact Or.inl ⟨rfl, rfl⟩
  | .array _ :: _ => exact Or.inr rfl
  | .member _ _ :: _ => exact Or.inr rfl
  | .object _ :: _ => exact Or.inl ⟨rfl, rfl⟩

theorem foldlM_cons_some {s s' : Reader σ α} {e : Event σ α} (h : s.feed e = some s')
    (l : List (Event σ α)) : (e :: l).foldlM feed s = l.foldlM feed s' := by
  rw [List.foldlM_cons, h]
  rfl

theorem foldlM_append_some {s s' : Reader σ α} {l : List (Event σ α)}
    (h : l.foldlM feed s = some s') (l' : List (Event σ α)) :
    (l ++ l').foldlM feed s = l'.foldlM feed s' := by
  rw [List.foldlM_append, h]
  rfl

theorem foldlM_singleton (s : Reader σ α) (e : Event σ α) : [e].foldlM feed s = s.feed e := by
  rw [List.foldlM_cons]
  exact bind_pure _

theorem foldlM_cons_none {s : Reader σ α} {e : Event σ α} (h : s.feed e = none)
    (l : List (Event σ α)) : (e :: l).foldlM feed s = none := by
  rw [List.foldlM_cons, h]
  rfl

mutual

/-- **The events of a tree** add the tree, wherever they come. -/
theorem foldlM_events (t : Tree σ α) (s : Reader σ α) : t.events.foldlM feed s = s.add t := by
  match t with
  | .value v => exact foldlM_singleton s _
  | .array items =>
      rw [Tree.events]
      rcases s.enter_cases (.array []) (.array items) with ⟨henter, hadd⟩ | henter
      · rw [hadd]
        exact foldlM_cons_none (e := .beginArray) henter _
      · rw [foldlM_cons_some (e := .beginArray) henter,
          foldlM_append_some (foldlM_itemEvents items s.root [] s.opened)]
        exact foldlM_singleton _ _
  | .object members =>
      rw [Tree.events]
      rcases s.enter_cases (.object []) (.object members) with ⟨henter, hadd⟩ | henter
      · rw [hadd]
        exact foldlM_cons_none (e := .beginObject) henter _
      · rw [foldlM_cons_some (e := .beginObject) henter,
          foldlM_append_some (foldlM_memberEvents members s.root [] s.opened)]
        exact foldlM_singleton _ _

/-- The items of an array go to its end. -/
theorem foldlM_itemEvents (items : List (Tree σ α)) (root : Option (Tree σ α))
    (past : List (Tree σ α)) (opened : List (Container σ α)) :
    (itemEvents items).foldlM feed ⟨root, .array past :: opened⟩ =
      some ⟨root, .array (past ++ items) :: opened⟩ := by
  match items with
  | [] =>
      rw [List.append_nil]
      rfl
  | t :: items =>
      rw [itemEvents, foldlM_append_some (foldlM_events t _), List.append_cons past t items]
      exact foldlM_itemEvents items root (past ++ [t]) opened

/-- The members of an object do so, too. -/
theorem foldlM_memberEvents (members : List (σ × Tree σ α)) (root : Option (Tree σ α))
    (past : List (σ × Tree σ α)) (opened : List (Container σ α)) :
    (memberEvents members).foldlM feed ⟨root, .object past :: opened⟩ =
      some ⟨root, .object (past ++ members) :: opened⟩ := by
  match members with
  | [] =>
      rw [List.append_nil]
      rfl
  | (name, t) :: members =>
      rw [memberEvents, foldlM_cons_some rfl, foldlM_append_some (foldlM_events t _),
        List.append_cons past (name, t) members]
      exact foldlM_memberEvents members root (past ++ [(name, t)]) opened

end

end Reader

/-- **What is written is read:** the events of a tree are read as the tree. -/
theorem read_events (t : Tree σ α) : read t.events = some t := by
  rw [read, Reader.foldlM_events]
  rfl

/-! ### Reading items one by one -/

section Items

variable {β γ : Type}

/-- Items are read if each of them is. -/
theorem mapM_eq_some_iff {f : β → Option γ} {l : List β} {l' : List γ} :
    l.mapM f = some l' ↔ l.map f = l'.map some := by
  induction l generalizing l' with
  | nil =>
      rw [List.mapM_nil, List.map_nil]
      cases l' with
      | nil => exact iff_of_true rfl rfl
      | cons y l' => exact iff_of_false nofun nofun
  | cons x l ih =>
      rw [List.mapM_cons, List.map_cons]
      cases hx : f x with
      | none =>
          refine iff_of_false nofun fun h => ?_
          cases l' with
          | nil => cases h
          | cons y l' => cases (List.cons.inj h).1
      | some y =>
          cases l' with
          | nil =>
              refine iff_of_false ?_ nofun
              cases l.mapM f with
              | none => exact nofun
              | some ys => exact nofun
          | cons y' l' =>
              rw [List.map_cons, List.cons.injEq, ← ih, Option.some.injEq]
              cases l.mapM f with
              | none => simp
              | some ys => simp

theorem exists_mapM {f : β → Option γ} {l : List β} (h : ∀ x ∈ l, ∃ y, f x = some y) :
    ∃ l', l.mapM f = some l' := by
  induction l with
  | nil => exact ⟨[], rfl⟩
  | cons x l ih =>
      obtain ⟨y, hy⟩ := h x List.mem_cons_self
      obtain ⟨l', hl'⟩ := ih fun z hz => h z (List.mem_cons_of_mem x hz)
      refine ⟨y :: l', ?_⟩
      rw [List.mapM_cons, hy, hl']
      rfl

/-- Items that were written one by one are found again. -/
theorem mapM_map_eq_some {δ : Type} {f : β → δ} {g : δ → Option γ} {h : β → γ} {l : List β}
    (hg : ∀ x ∈ l, g (f x) = some (h x)) : (l.map f).mapM g = some (l.map h) := by
  rw [mapM_eq_some_iff, List.map_map, List.map_map]
  exact List.map_congr_left hg

end Items

end EventTree
