/-
# Accounts that are closed into a main account

Accounts are opened, record events and are closed, one by one and in any order; closing
one merges it into a main account, and its number may be used for another one
afterwards.  `Balanced` says where every event that was ever recorded is: in the main
account, or in one account that is open.  Each way in which an account changes keeps
that, what can be added up is always there in total (`Balanced.total`), and when no
account is open, the main account has recorded everything (`Balanced.main_eq`).
-/

import Iotrace.Library.Accumulation
import Mathlib.Algebra.BigOperators.Group.Finset.Basic
import Mathlib.Tactic.Abel

namespace Accumulation

variable {S E ι : Type}

/-- The main account and those in `opened` have together recorded `all`. -/
def Balanced (A : Accumulation S E) (main : S) (account : ι → S) (opened : Finset ι)
    (all : List E) : Prop :=
  ∃ (closed : List E) (past : ι → List E),
    main = A.recordAll A.fresh closed ∧
      (∀ i ∈ opened, account i = A.recordAll A.fresh (past i)) ∧
      (all : Multiset E) = closed + ∑ i ∈ opened, (past i : Multiset E)

namespace Balanced

variable {A : Accumulation S E} {main : S} {account account' : ι → S} {opened : Finset ι}
  {all : List E} {i : ι}

/-- One account, and nothing recorded. -/
theorem first (hi : account i = A.fresh) : A.Balanced A.fresh account {i} [] := by
  refine ⟨[], fun _ => [], rfl, fun j hj => ?_, by simp⟩
  rw [Finset.mem_singleton.mp hj]
  exact hi

/-- What the accounts that are not open hold does not matter. -/
theorem congr (h : A.Balanced main account opened all)
    (hsame : ∀ j ∈ opened, account' j = account j) : A.Balanced main account' opened all := by
  obtain ⟨closed, past, hmain, hpast, hall⟩ := h
  exact ⟨closed, past, hmain, fun j hj => (hsame j hj).trans (hpast j hj), hall⟩

/-- **When all accounts are closed**, the main one has recorded everything. -/
theorem main_eq (h : A.Balanced main account ∅ all)
    (hcomm : ∀ e ∈ all, ∀ e' ∈ all, A.Commute e e') : main = A.recordAll A.fresh all := by
  obtain ⟨closed, past, hmain, -, hall⟩ := h
  rw [Finset.sum_empty, add_zero] at hall
  rw [hmain]
  exact (recordAll_perm (Multiset.coe_eq_coe.mp hall) hcomm A.fresh).symm

/-- **Nothing is lost on the way:** what is in the main account and in the open ones adds
up to what has been recorded. -/
theorem total {M : Type} [AddCommMonoid M] {f : S → M} {g : E → M}
    (hf : ∀ es, f (A.recordAll A.fresh es) = (es.map g).sum)
    (h : A.Balanced main account opened all) :
    f main + ∑ i ∈ opened, f (account i) = (all.map g).sum := by
  obtain ⟨closed, past, rfl, hpast, hall⟩ := h
  have hopen : ∑ i ∈ opened, f (account i) =
      ∑ i ∈ opened, ((past i : Multiset E).map g).sum :=
    Finset.sum_congr rfl fun i hi => by rw [hpast i hi, hf]; rfl
  have hsum : ((∑ i ∈ opened, (past i : Multiset E)).map g).sum =
      ∑ i ∈ opened, ((past i : Multiset E).map g).sum := by
    rw [← Multiset.coe_mapAddMonoidHom, ← Multiset.coe_sumAddMonoidHom, map_sum, map_sum]
  calc f (A.recordAll A.fresh closed) + ∑ i ∈ opened, f (account i)
      = ((closed : Multiset E).map g).sum + ∑ i ∈ opened, ((past i : Multiset E).map g).sum := by
        rw [hf, hopen]
        rfl
    _ = ((all : Multiset E).map g).sum := by
        rw [hall, Multiset.map_add, Multiset.sum_add, hsum]
    _ = (all.map g).sum := rfl

variable [DecidableEq ι]

/-- **An account is opened.** -/
theorem enter (h : A.Balanced main account opened all) (hi : i ∉ opened) :
    A.Balanced main (Function.update account i A.fresh) (insert i opened) all := by
  obtain ⟨closed, past, hmain, hpast, hall⟩ := h
  have hne : ∀ j ∈ opened, j ≠ i := fun j hj hji => hi (hji ▸ hj)
  refine ⟨closed, Function.update past i [], hmain, fun j hj => ?_, ?_⟩
  · rcases Finset.mem_insert.mp hj with rfl | hj
    · rw [Function.update_self, Function.update_self]
      rfl
    · rw [Function.update_of_ne (hne j hj), Function.update_of_ne (hne j hj)]
      exact hpast j hj
  · have hothers : ∑ j ∈ opened, (Function.update past i [] j : Multiset E) =
        ∑ j ∈ opened, (past j : Multiset E) :=
      Finset.sum_congr rfl fun j hj => by rw [Function.update_of_ne (hne j hj)]
    rw [Finset.sum_insert hi, Function.update_self, hothers, Multiset.coe_nil, zero_add]
    exact hall

/-- **An open account records events.** -/
theorem record (h : A.Balanced main account opened all) (hi : i ∈ opened) (es : List E) :
    A.Balanced main (Function.update account i (A.recordAll (account i) es)) opened
      (all ++ es) := by
  obtain ⟨closed, past, hmain, hpast, hall⟩ := h
  refine ⟨closed, Function.update past i (past i ++ es), hmain, fun j hj => ?_, ?_⟩
  · by_cases hji : j = i
    · rw [hji, Function.update_self, Function.update_self, recordAll_append, hpast i hi]
    · rw [Function.update_of_ne hji, Function.update_of_ne hji]
      exact hpast j hj
  · have hothers : ∑ j ∈ opened.erase i, (Function.update past i (past i ++ es) j : Multiset E) =
        ∑ j ∈ opened.erase i, (past j : Multiset E) :=
      Finset.sum_congr rfl fun j hj => by rw [Function.update_of_ne (Finset.ne_of_mem_erase hj)]
    rw [← Multiset.coe_add, hall, ← Finset.add_sum_erase opened _ hi,
      ← Finset.add_sum_erase opened (fun j => (Function.update past i _ j : Multiset E)) hi,
      hothers, Function.update_self, ← Multiset.coe_add]
    abel

/-- **An account is closed.** -/
theorem close {Ok : S → Prop} (hA : A.Lawful Ok) (h : A.Balanced main account opened all)
    (hi : i ∈ opened) : A.Balanced (A.merge main (account i)) account (opened.erase i) all := by
  obtain ⟨closed, past, rfl, hpast, hall⟩ := h
  refine ⟨closed ++ past i, past, ?_, fun j hj => hpast j (Finset.mem_of_mem_erase hj), ?_⟩
  · rw [hpast i hi, hA.merge_recordAll (hA.recordAll_ok hA.fresh_ok closed), recordAll_append]
  · rw [hall, ← Finset.add_sum_erase opened _ hi, ← Multiset.coe_add, add_assoc]

end Balanced

end Accumulation
