/-
# Finite maps: keeping and counting entries

Mathlib's `Finmap` is a map with finitely many keys and no order on its entries,
which is what a hash table is to its caller.  This file adds, for maps whose
values have one type, the walk that keeps the entries passing a test, the number
of entries passing one, the update of an entry in place, the walk over all entries
and the sum of a measure over them.
-/

import Mathlib.Data.Finmap
import Mathlib.Algebra.BigOperators.Group.Multiset.Defs

namespace FiniteMap

variable {α β : Type}

/-- The entries of `t` whose value passes the test `p`. -/
def keep (p : β → Bool) (t : Finmap fun _ : α => β) : Finmap fun _ : α => β :=
  t.liftOn (fun s => AList.toFinmap
      ⟨s.entries.filter fun e => p e.2, s.nodupKeys.sublist List.filter_sublist⟩)
    fun _ _ h => AList.toFinmap_eq.mpr (h.filter _)

/-- The number of entries of `t` whose value passes the test `p`. -/
def count (p : β → Bool) (t : Finmap fun _ : α => β) : ℕ :=
  t.entries.countP fun e => p e.2

variable [DecidableEq α]

theorem dlookup_filter (p : β → Bool) {l : List (Sigma fun _ : α => β)} (hl : l.NodupKeys)
    (k : α) : (l.filter fun e => p e.2).dlookup k = (l.dlookup k).filter p := by
  induction l with
  | nil => rfl
  | cons e l ih =>
      obtain ⟨k', v⟩ := e
      obtain ⟨hk, hrest⟩ := List.nodupKeys_cons.mp hl
      by_cases hkk : k = k'
      · subst hkk
        have hnone : (l.filter fun e => p e.2).dlookup k = none := by
          rw [ih hrest, List.dlookup_eq_none.mpr hk, Option.filter_none]
        cases hp : p v <;> simp [hp, hnone, Option.filter]
      · have hne : ∀ (l' : List (Sigma fun _ : α => β)),
            (⟨k', v⟩ :: l').dlookup k = l'.dlookup k :=
          fun l' => List.dlookup_cons_ne l' ⟨k', v⟩ hkk
        rw [hne, ← ih hrest]
        cases hp : p v <;> simp [hp, hne]

/-- **What `keep` keeps:** the entry of a key, if its value passes the test. -/
theorem lookup_keep (p : β → Bool) (t : Finmap fun _ : α => β) (k : α) :
    (keep p t).lookup k = (t.lookup k).filter p := by
  induction t using Finmap.induction_on with
  | H s => exact dlookup_filter p s.nodupKeys k

/-- Storing under `k` what is there already changes nothing, and only that. -/
theorem insert_eq_self_iff {t : Finmap fun _ : α => β} {k : α} {v : β} :
    t.insert k v = t ↔ t.lookup k = some v := by
  constructor
  · intro h
    rw [← h, Finmap.lookup_insert]
  · intro h
    refine Finmap.ext_lookup fun x => ?_
    by_cases hx : x = k
    · subst hx
      rw [Finmap.lookup_insert, h]
    · rw [Finmap.lookup_insert_of_ne _ hx]

theorem lookup_insert_eq (t : Finmap fun _ : α => β) (k x : α) (v : β) :
    (t.insert k v).lookup x = if x = k then some v else t.lookup x := by
  split_ifs with h
  · rw [h, Finmap.lookup_insert]
  · rw [Finmap.lookup_insert_of_ne _ h]

theorem keys_insert (t : Finmap fun _ : α => β) (k : α) (v : β) :
    (t.insert k v).keys = insert k t.keys := by
  ext x
  rw [Finmap.mem_keys, Finmap.mem_insert, Finset.mem_insert, Finmap.mem_keys]

theorem keys_erase (t : Finmap fun _ : α => β) (k : α) : (t.erase k).keys = t.keys.erase k := by
  ext x
  rw [Finmap.mem_keys, Finmap.mem_erase, Finset.mem_erase, Finmap.mem_keys]

theorem mem_keys_of_some {t : Finmap fun _ : α => β} {k : α} {v : β} (h : t.lookup k = some v) :
    k ∈ t.keys :=
  Finmap.mem_keys.mpr (Finmap.mem_of_lookup_eq_some h)

/-- An entry stays when a key that has none is given one. -/
theorem lookup_insert_of_some {t : Finmap fun _ : α => β} {k x : α} {v : β}
    (hk : t.lookup k = none) (hx : t.lookup x = some v) (u : β) :
    (t.insert k u).lookup x = some v := by
  have hne : x ≠ k := by
    rintro rfl
    rw [hk] at hx
    cases hx
  rw [Finmap.lookup_insert_of_ne _ hne, hx]

theorem lookup_erase_eq (t : Finmap fun _ : α => β) (k x : α) :
    (t.erase k).lookup x = if x = k then none else t.lookup x := by
  split_ifs with h
  · rw [h, Finmap.lookup_erase]
  · rw [Finmap.lookup_erase_ne h]

theorem erase_of_lookup_none {t : Finmap fun _ : α => β} {k : α} (h : t.lookup k = none) :
    t.erase k = t := by
  refine Finmap.ext_lookup fun x => ?_
  rw [lookup_erase_eq]
  split_ifs with hx
  · rw [hx, h]
  · rfl

theorem insert_erase_self (t : Finmap fun _ : α => β) (k : α) (v : β) :
    (t.erase k).insert k v = t.insert k v := by
  refine Finmap.ext_lookup fun x => ?_
  rw [lookup_insert_eq, lookup_insert_eq, lookup_erase_eq]
  split_ifs <;> rfl

/-- Erasing an entry takes it out of the count. -/
theorem count_erase_add (p : β → Bool) {t : Finmap fun _ : α => β} {k : α} {v : β}
    (h : t.lookup k = some v) : count p (t.erase k) + (p v).toNat = count p t := by
  induction t using Finmap.induction_on with
  | H s =>
      have hmem : (⟨k, v⟩ : Sigma fun _ : α => β) ∈ s.entries := List.of_mem_dlookup h
      obtain ⟨b, l₁, l₂, hk, he, hk'⟩ := List.exists_of_kerase (List.mem_keys_of_mem hmem)
      have hb : b = v := by
        have hlook : s.entries.dlookup k = some v := h
        rw [he, List.dlookup_append, List.dlookup_eq_none.mpr hk] at hlook
        simpa using hlook
      subst hb
      change (s.entries.kerase k).countP _ + _ = s.entries.countP _
      rw [hk', he]
      cases hp : p b <;> simp [hp]
      omega

/-- Inserting an entry replaces the one that was there. -/
theorem count_insert (p : β → Bool) (t : Finmap fun _ : α => β) (k : α) (v : β) :
    count p (t.insert k v) = count p (t.erase k) + (p v).toNat := by
  have h := count_erase_add p (Finmap.lookup_insert (a := k) (b := v) t)
  have herase : (t.insert k v).erase k = t.erase k := by
    refine Finmap.ext_lookup fun x => ?_
    rw [lookup_erase_eq, lookup_erase_eq, lookup_insert_eq]
    split_ifs <;> rfl
  rw [← h, herase]

/-- Tests that agree on all entries count the same. -/
theorem count_congr {p q : β → Bool} {t : Finmap fun _ : α => β}
    (h : ∀ k v, t.lookup k = some v → p v = q v) : count p t = count q t := by
  induction t using Finmap.induction_on with
  | H s =>
      refine List.countP_congr fun e he => ?_
      have hlook : s.entries.dlookup e.1 = some e.2 := List.mem_dlookup s.nodupKeys he
      have heq := h e.1 e.2 hlook
      simp only [heq]

/-- An entry that passes the test is counted. -/
theorem count_pos (p : β → Bool) {t : Finmap fun _ : α => β} {k : α} {v : β}
    (h : t.lookup k = some v) (hp : p v = true) : 0 < count p t := by
  have := count_erase_add p h
  rw [hp] at this
  simp at this
  omega

/-- Two entries that pass the test are counted as two. -/
theorem one_lt_count (p : β → Bool) {t : Finmap fun _ : α => β} {k k' : α} {v v' : β}
    (h : t.lookup k = some v) (hp : p v = true) (h' : t.lookup k' = some v') (hp' : p v' = true)
    (hne : k ≠ k') : 1 < count p t := by
  have hcount := count_erase_add p h
  have hrest := count_pos p (t := t.erase k) (k := k') (v := v')
    (by rw [Finmap.lookup_erase_ne hne.symm, h']) hp'
  rw [hp] at hcount
  simp at hcount
  omega

/-- A count of zero says that no entry passes the test. -/
theorem count_eq_zero_iff (p : β → Bool) (t : Finmap fun _ : α => β) :
    count p t = 0 ↔ ∀ k v, t.lookup k = some v → p v = false := by
  induction t using Finmap.induction_on with
  | H s =>
      change s.entries.countP _ = 0 ↔ _
      rw [List.countP_eq_zero]
      constructor
      · intro h k v hkv
        have hmem : (⟨k, v⟩ : Sigma fun _ : α => β) ∈ s.entries := List.of_mem_dlookup hkv
        simpa using h _ hmem
      · rintro h ⟨k, v⟩ hmem
        have hkv : s.entries.dlookup k = some v := List.mem_dlookup s.nodupKeys hmem
        simpa using h k v hkv

/-! ### Updating entries, and walking over them -/

/-- The entry of `k` is replaced by what `f` makes of it. -/
def modify (t : Finmap fun _ : α => β) (k : α) (f : Option β → β) : Finmap fun _ : α => β :=
  t.insert k (f (t.lookup k))

theorem lookup_modify (t : Finmap fun _ : α => β) (k x : α) (f : Option β → β) :
    (modify t k f).lookup x = if x = k then some (f (t.lookup k)) else t.lookup x :=
  lookup_insert_eq t k x _

/-- Updates of different entries do not see each other. -/
theorem modify_comm {k k' : α} (h : k ≠ k') (t : Finmap fun _ : α => β) (f g : Option β → β) :
    modify (modify t k f) k' g = modify (modify t k' g) k f := by
  unfold modify
  rw [Finmap.lookup_insert_of_ne _ h.symm, Finmap.lookup_insert_of_ne _ h]
  exact Finmap.insert_insert_of_ne t h

section Walk

variable {γ : Type}

/-- The effects of two entries with different keys can be exchanged. -/
def Exchangeable (f : γ → α → β → γ) : Prop :=
  ∀ c k v k' v', k ≠ k' → f (f c k v) k' v' = f (f c k' v') k v

/-- **A walk over all entries**, in an order that does not matter: each entry
changes `c` once. -/
def walk (f : γ → α → β → γ) (hf : Exchangeable f) (t : Finmap fun _ : α => β) (c : γ) : γ :=
  t.liftOn (fun s => s.entries.foldl (fun c e => f c e.1 e.2) c) fun s s' h => by
    refine h.foldl_eq' (fun e he e' he' c => ?_) c
    by_cases hk : e.1 = e'.1
    · rw [s.nodupKeys.eq_of_fst_eq he he' hk]
    · exact hf c e.1 e.2 e'.1 e'.2 hk

/-- The walk that updates in one map the entries of another. -/
theorem lookup_foldl_modify {β' : Type} (g : β' → Option β → β)
    (l : List (Sigma fun _ : α => β')) (hl : l.NodupKeys) (t : Finmap fun _ : α => β) (x : α) :
    (l.foldl (fun t e => modify t e.1 (g e.2)) t).lookup x =
      match l.dlookup x with
      | some v => some (g v (t.lookup x))
      | none => t.lookup x := by
  induction l generalizing t with
  | nil => rfl
  | cons e l ih =>
      obtain ⟨k, v⟩ := e
      obtain ⟨hk, hrest⟩ := List.nodupKeys_cons.mp hl
      rw [List.foldl_cons, ih hrest, lookup_modify]
      by_cases hx : x = k
      · subst hx
        rw [List.dlookup_eq_none.mpr hk, List.dlookup_cons_eq, if_pos rfl]
      · rw [List.dlookup_cons_ne l ⟨k, v⟩ hx, if_neg hx]

/-- **A merge read entry by entry:** every entry of `t'` updates the one of `t`
under its key. -/
theorem lookup_walk_modify {β' : Type} (g : β' → Option β → β) (hf)
    (t' : Finmap fun _ : α => β') (t : Finmap fun _ : α => β) (x : α) :
    (walk (fun t k v => modify t k (g v)) hf t' t).lookup x =
      match t'.lookup x with
      | some v => some (g v (t.lookup x))
      | none => t.lookup x := by
  induction t' using Finmap.induction_on with
  | H s => exact lookup_foldl_modify g s.entries s.nodupKeys t x

theorem exchangeable_modify {β' : Type} (g : β' → Option β → β) :
    Exchangeable fun (t : Finmap fun _ : α => β) k v => modify t k (g v) :=
  fun t _ v _ v' h => modify_comm h t (g v) (g v')

end Walk

/-! ### Enumerations -/

/-- The entries of a map in some order, each of them once. -/
structure Enumeration (t : Finmap fun _ : α => β) where
  entries : List (Sigma fun _ : α => β)
  complete : (entries : Multiset (Sigma fun _ : α => β)) = t.entries

namespace Enumeration

variable {t : Finmap fun _ : α => β}

theorem mem_iff (w : Enumeration t) {k : α} {v : β} :
    (⟨k, v⟩ : Sigma fun _ : α => β) ∈ w.entries ↔ t.lookup k = some v := by
  rw [← Multiset.mem_coe, w.complete]
  exact Finmap.mem_lookup_iff.symm

/-- A map is what its entries make. -/
theorem toFinmap (w : Enumeration t) : w.entries.toFinmap = t := by
  obtain ⟨entries, hcomplete⟩ := w
  induction t using Finmap.induction_on with
  | H s =>
      have hperm : entries.Perm s.entries := Multiset.coe_eq_coe.mp hcomplete
      have hnodup : entries.NodupKeys := (List.perm_nodupKeys hperm).mpr s.nodupKeys
      refine Finmap.ext_lookup fun x => ?_
      rw [Finmap.dlookup_list_toFinmap]
      exact List.perm_dlookup x hnodup hperm

/-- A walk may visit the entries in this order. -/
theorem walk_eq {γ : Type} (w : Enumeration t) {f : γ → α → β → γ} (hf : Exchangeable f) (c : γ) :
    walk f hf t c = w.entries.foldl (fun c e => f c e.1 e.2) c := by
  obtain ⟨entries, hcomplete⟩ := w
  induction t using Finmap.induction_on with
  | H s =>
      have hperm : s.entries.Perm entries := (Multiset.coe_eq_coe.mp hcomplete).symm
      refine hperm.foldl_eq' (fun e he e' he' c => ?_) c
      by_cases hk : e.1 = e'.1
      · rw [s.nodupKeys.eq_of_fst_eq he he' hk]
      · exact hf c e.1 e.2 e'.1 e'.2 hk

end Enumeration

/-! ### Visits -/

/-- Entries that are there, each of them once, such as those that an iterator has still to
visit. -/
structure Visits (t : Finmap fun _ : α => β) (l : List (Sigma fun _ : α => β)) : Prop where
  nodup : l.NodupKeys
  here : ∀ e ∈ l, t.lookup e.1 = some e.2

namespace Visits

variable {t : Finmap fun _ : α => β} {e : Sigma fun _ : α => β}
  {l : List (Sigma fun _ : α => β)}

theorem tail (h : Visits t (e :: l)) : Visits t l :=
  ⟨(List.nodupKeys_cons.mp h.nodup).2, fun e' he' => h.here e' (List.mem_cons_of_mem e he')⟩

theorem head_notMem (h : Visits t (e :: l)) : e.1 ∉ l.keys :=
  (List.nodupKeys_cons.mp h.nodup).1

/-- An iterator may remove the entry that it is at. -/
theorem erase (h : Visits t (e :: l)) : Visits (t.erase e.1) l := by
  refine ⟨h.tail.nodup, fun e' he' => ?_⟩
  have hne : e'.1 ≠ e.1 := fun heq =>
    h.head_notMem (heq ▸ List.mem_keys_of_mem he')
  rw [lookup_erase_eq, if_neg hne, h.tail.here e' he']

/-- All entries are visited. -/
theorem of_entries (h : (l : Multiset (Sigma fun _ : α => β)) = t.entries) :
    Visits t l ∧ ∀ k, k ∈ l.keys ↔ (t.lookup k).isSome := by
  have hmem : ∀ e : Sigma fun _ : α => β, e ∈ l ↔ t.lookup e.1 = some e.2 := fun e =>
    Enumeration.mem_iff ⟨l, h⟩
  have hnodup : l.NodupKeys := by
    have hkeys := t.nodupKeys
    rw [← h] at hkeys
    exact hkeys
  refine ⟨⟨hnodup, fun e he => (hmem e).mp he⟩, fun k => ?_⟩
  rw [List.mem_keys, Option.isSome_iff_exists]
  exact exists_congr fun v => hmem ⟨k, v⟩

end Visits

/-! ### Summing over entries -/

section Sum

variable {M : Type} [AddCommMonoid M] (f : α → β → M)

/-- The sum of a measure over all entries. -/
def sum (t : Finmap fun _ : α => β) : M := (t.entries.map fun e => f e.1 e.2).sum

variable {f}

theorem sum_insert_of_none {t : Finmap fun _ : α => β} {k : α} (h : t.lookup k = none) (v : β) :
    sum f (t.insert k v) = f k v + sum f t := by
  rw [sum, Finmap.entries_insert_of_notMem (Finmap.lookup_eq_none.mp h), Multiset.map_cons,
    Multiset.sum_cons, sum]

/-- **A change of one entry** changes the sum by as much. -/
theorem sum_modify {t : Finmap fun _ : α => β} {k : α} {g : Option β → β} {d : M}
    (hnone : t.lookup k = none → f k (g none) = d)
    (hsome : ∀ v, t.lookup k = some v → f k (g (some v)) = f k v + d) :
    sum f (modify t k g) = sum f t + d := by
  rw [modify]
  cases h : t.lookup k with
  | none => rw [sum_insert_of_none h, hnone h, add_comm]
  | some v =>
      have herase : (t.erase k).lookup k = none := Finmap.lookup_erase k t
      rw [← insert_erase_self, sum_insert_of_none herase, hsome v h]
      conv_rhs => rw [← insert_eq_self_iff.mpr h, ← insert_erase_self,
        sum_insert_of_none herase]
      rw [add_right_comm]

end Sum

end FiniteMap
