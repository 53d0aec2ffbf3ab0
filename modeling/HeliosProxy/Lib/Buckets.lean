import HeliosProxy.Lib.Lru

/-!
# A map to lists that are not empty

Elements are filed under keys, in the order they came.  A key whose list runs empty is
dropped.  What the elements amount to together changes by the elements of the list that is
replaced.
-/

namespace HeliosProxy.Buckets

open Lru

variable {κ α : Type*} [DecidableEq κ]

def bucketOf (k : κ) (l : List (κ × List α)) : List α := (lookup k l).getD []

def setBucket (k : κ) (b : List α) (l : List (κ × List α)) : List (κ × List α) :=
  if b.isEmpty then erase k l else insert k b l

def amount (m : α → Nat) (l : List (κ × List α)) : Nat := weight (fun b => (b.map m).sum) l

@[simp] theorem bucketOf_setBucket_self (k : κ) (b : List α) (l : List (κ × List α)) :
    bucketOf k (setBucket k b l) = b := by
  unfold bucketOf setBucket
  split
  case isTrue he => rw [lookup_erase_self, List.isEmpty_iff.mp he, Option.getD_none]
  case isFalse => rw [lookup_insert_self, Option.getD_some]

variable {k : κ}

theorem bucketOf_setBucket_of_ne {k' : κ} (hd : k' ≠ k) (b : List α) (l : List (κ × List α)) :
    bucketOf k' (setBucket k b l) = bucketOf k' l := by
  unfold bucketOf setBucket
  split
  case isTrue => rw [lookup_erase_of_ne hd]
  case isFalse => rw [lookup_insert_of_ne hd]

variable {l : List (κ × List α)}

theorem keyed_setBucket {b : List α} (hk : Keyed l) : Keyed (setBucket k b l) := by
  unfold setBucket
  split
  · exact keyed_erase hk
  · exact keyed_cons_erase hk

variable {m : α → Nat}

theorem amount_erase (hk : Keyed l) :
    amount m (erase k l) + ((bucketOf k l).map m).sum = amount m l := by
  unfold amount bucketOf
  cases hf : lookup k l with
  | none => rw [erase_of_lookup hf, Option.getD_none, List.map_nil, List.sum_nil, Nat.add_zero]
  | some b => exact weight_erase hk hf

theorem le_amount {x : α} (hk : Keyed l) (hm : x ∈ bucketOf k l) : m x ≤ amount m l := by
  have he := amount_erase (m := m) (k := k) hk
  have hone := List.single_le_sum (fun _ _ => Nat.zero_le _) (m x) (List.mem_map_of_mem hm)
  omega

theorem amount_setBucket (m : α → Nat) (k : κ) (b : List α) (hk : Keyed l) :
    amount m (setBucket k b l) + ((bucketOf k l).map m).sum = amount m l + (b.map m).sum := by
  have her := amount_erase (m := m) (k := k) hk
  unfold setBucket
  split
  case isTrue he =>
    rw [List.isEmpty_iff.mp he, List.map_nil, List.sum_nil]
    omega
  case isFalse =>
    have hi : amount m (insert k b l) = (b.map m).sum + amount m (erase k l) := weight_cons _ _ _
    omega

/-- `gone` is taken out of the lists, which otherwise stay in their order. -/
structure Removes (l l' : List (κ × List α)) (gone : List α) : Prop where
  keyed : Keyed l'
  sublist : ∀ k, (bucketOf k l').Sublist (bucketOf k l)
  amount : ∀ m, Buckets.amount m l' + (gone.map m).sum = Buckets.amount m l

theorem removes_nil (hk : Keyed l) : Removes l l [] :=
  ⟨hk, fun _ => .refl _, fun _ => rfl⟩

theorem removes_setBucket {b gone : List α} (hk : Keyed l)
    (hke : b.Sublist (bucketOf k l)) (hp : (bucketOf k l).Perm (b ++ gone)) :
    Removes l (setBucket k b l) gone where
  keyed := keyed_setBucket hk
  sublist k' := by
    by_cases hs : k' = k
    · subst hs
      rwa [bucketOf_setBucket_self]
    · rw [bucketOf_setBucket_of_ne hs]
  amount m := by
    have hr := amount_setBucket m k b hk
    have hsu := (hp.map m).sum_eq
    rw [List.map_append, List.sum_append] at hsu
    omega

theorem amount_eq_zero (hk : Keyed l) (he : ∀ k, bucketOf k l = []) :
    amount m l = 0 := by
  induction l with
  | nil => rfl
  | cons e l ih =>
    obtain ⟨ha, hk⟩ := List.nodup_cons.mp hk
    have hf : e.2 = [] := by simpa [bucketOf, lookup] using he e.1
    have hr : ∀ k, bucketOf k l = [] := by
      intro k
      by_cases hs : e.1 = k
      · have hn : lookup k l = none := lookup_eq_none.mpr fun x hm ho =>
          ha (List.mem_map.mpr ⟨x, hm, ho.trans hs.symm⟩)
        rw [bucketOf, hn, Option.getD_none]
      · have hl := he k
        rwa [bucketOf, lookup, List.find?_cons_of_neg (by simpa using hs), ← lookup,
          ← bucketOf] at hl
    have hsu : amount m (e :: l) = (e.2.map m).sum + amount m l := weight_cons _ _ _
    rw [hsu, ih hk hr, hf, List.map_nil, List.sum_nil]

end HeliosProxy.Buckets
