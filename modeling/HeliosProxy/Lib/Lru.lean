import Mathlib

/-!
# A map in the order of its last uses

The entries of a bounded map are a list, the most recently used first.  A new key at
capacity pushes the last entry out.  What the entries weigh together changes by the weight
of the entry that comes or goes.
-/

namespace HeliosProxy.Lru

open List Option

variable {κ ν : Type*} [DecidableEq κ]

def lookup (k : κ) (l : List (κ × ν)) : Option ν := (l.find? (·.1 = k)).map (·.2)

def erase (k : κ) (l : List (κ × ν)) : List (κ × ν) := l.filter (·.1 ≠ k)

def get (k : κ) (l : List (κ × ν)) : Option ν × List (κ × ν) :=
  match lookup k l with
  | none => (none, l)
  | some v => (some v, (k, v) :: erase k l)

/-- The value that was there under the key, and the entries with the new one.  An entry
that is pushed out is not returned. -/
def put (cap : Nat) (k : κ) (v : ν) (l : List (κ × ν)) : Option ν × List (κ × ν) :=
  match lookup k l with
  | some old => (some old, (k, v) :: erase k l)
  | none => (none, (k, v) :: if cap ≤ l.length then l.dropLast else l)

def insert (k : κ) (v : ν) (l : List (κ × ν)) : List (κ × ν) := (k, v) :: erase k l

def pop (k : κ) (l : List (κ × ν)) : Option ν × List (κ × ν) := (lookup k l, erase k l)

def Keyed (l : List (κ × ν)) : Prop := (l.map Prod.fst).Nodup

def weight (w : ν → Nat) (l : List (κ × ν)) : Nat := (l.map fun e => w e.2).sum

omit [DecidableEq κ] in
@[simp] theorem weight_nil (w : ν → Nat) : weight w ([] : List (κ × ν)) = 0 := rfl

omit [DecidableEq κ] in
@[simp] theorem weight_cons (w : ν → Nat) (e : κ × ν) (l : List (κ × ν)) :
    weight w (e :: l) = w e.2 + weight w l := by
  rw [weight, map_cons, sum_cons, weight]

variable {w : ν → Nat} {l : List (κ × ν)} {e : κ × ν}

omit [DecidableEq κ] in
theorem weight_dropLast (hl : l.getLast? = some e) :
    weight w l.dropLast + w e.2 = weight w l := by
  conv => rhs; rw [← dropLast_append_getLast? e hl]
  simp [weight]

variable {k : κ}

theorem lookup_eq_none : lookup k l = none ↔ ∀ e ∈ l, e.1 ≠ k := by
  simp [lookup]

variable {v : ν}

theorem mem_of_lookup (hfo : lookup k l = some v) : (k, v) ∈ l := by
  obtain ⟨e, hf, rfl⟩ := map_eq_some_iff.mp hfo
  have hs : e.1 = k := by simpa using find?_some hf
  rw [← hs]
  exact mem_of_find?_eq_some hf

theorem mem_of_mem_erase (hm : e ∈ erase k l) : e ∈ l :=
  (mem_filter.mp hm).1

theorem eq_or_mem_of_mem_insert (hm : e ∈ insert k v l) :
    e = (k, v) ∨ e ∈ l :=
  (mem_cons.mp hm).imp_right mem_of_mem_erase

theorem erase_of_lookup (ha : lookup k l = none) : erase k l = l := by
  rw [erase, filter_eq_self]
  intro e hm
  exact decide_eq_true (lookup_eq_none.mp ha e hm)

theorem erase_promoted (k : κ) (v : ν) (l : List (κ × ν)) :
    erase k ((k, v) :: erase k l) = erase k l := by
  rw [erase, filter_cons_of_neg (by simp), erase, List.filter_filter]
  simp

theorem lookup_erase_self (k : κ) (l : List (κ × ν)) : lookup k (erase k l) = none :=
  lookup_eq_none.mpr fun e hm => by simpa using (mem_filter.mp hm).2

theorem lookup_erase_of_ne {k' : κ} (hd : k' ≠ k) (l : List (κ × ν)) :
    lookup k' (erase k l) = lookup k' l := by
  induction l with
  | nil => rfl
  | cons e l ih =>
    unfold erase lookup at ih ⊢
    by_cases hh : e.1 = k
    · have ho : e.1 ≠ k' := fun hs => hd (hs.symm.trans hh)
      rw [filter_cons_of_neg (by simpa using hh), ih, find?_cons_of_neg (by simpa using ho)]
    · rw [filter_cons_of_pos (by simpa using hh)]
      by_cases ht : e.1 = k'
      · rw [find?_cons_of_pos (by simpa using ht), find?_cons_of_pos (by simpa using ht)]
      · rw [find?_cons_of_neg (by simpa using ht), ih, find?_cons_of_neg (by simpa using ht)]

theorem lookup_insert_self (k : κ) (v : ν) (l : List (κ × ν)) :
    lookup k (insert k v l) = some v := by
  simp [lookup, insert]

theorem lookup_insert_of_ne {k' : κ} (hd : k' ≠ k) (v : ν) (l : List (κ × ν)) :
    lookup k' (insert k v l) = lookup k' l := by
  rw [← lookup_erase_of_ne hd l, insert, lookup, find?_cons_of_neg (by simpa using hd.symm), lookup]

section

variable (hke : Keyed l)
include hke

theorem weight_erase (hf : lookup k l = some v) : weight w (erase k l) + w v = weight w l := by
  induction l with
  | nil => cases hf
  | cons e l ih =>
    obtain ⟨ha, hke⟩ := nodup_cons.mp hke
    by_cases hh : e.1 = k
    · have hv : e.2 = v := by simpa [lookup, hh] using hf
      have hr : lookup k l = none := lookup_eq_none.mpr fun x hm hs =>
        ha (List.mem_map.mpr ⟨x, hm, hs.trans hh.symm⟩)
      rw [erase, filter_cons_of_neg (by simpa using hh), ← erase, erase_of_lookup hr,
        weight_cons, hv, Nat.add_comm]
    · have hl : lookup k l = some v := by simpa [lookup, hh] using hf
      have hsu := ih hke hl
      rw [erase, filter_cons_of_pos (by simpa using hh), ← erase, weight_cons, weight_cons]
      omega

theorem length_erase (hf : lookup k l = some v) : (erase k l).length + 1 = l.length := by
  have hc (l : List (κ × ν)) : weight (fun _ => 1) l = l.length := by simp [weight]
  rw [← hc, ← hc]
  exact weight_erase hke hf

theorem keyed_erase : Keyed (erase k l) :=
  hke.sublist (filter_sublist.map _)

omit [DecidableEq κ] in
theorem keyed_dropLast : Keyed l.dropLast :=
  hke.sublist ((dropLast_sublist l).map _)

theorem keyed_cons_erase : Keyed ((k, v) :: erase k l) := by
  refine nodup_cons.mpr ⟨fun hm => ?_, keyed_erase hke⟩
  obtain ⟨e, hh, hs⟩ := List.mem_map.mp hm
  exact of_decide_eq_true (mem_filter.mp hh).2 hs

theorem keyed_put {cap : Nat} : Keyed (put cap k v l).2 := by
  unfold put
  split
  case h_1 => exact keyed_cons_erase hke
  case h_2 ha =>
    have hk {x : List (κ × ν)} (hsub : Sublist x l) : Keyed ((k, v) :: x) := by
      refine nodup_cons.mpr ⟨fun hm => ?_, hke.sublist (hsub.map _)⟩
      obtain ⟨e, hh, hs⟩ := List.mem_map.mp hm
      exact lookup_eq_none.mp ha e (hsub.subset hh) hs
    split
    · exact hk (dropLast_sublist l)
    · exact hk (Sublist.refl l)

end

end HeliosProxy.Lru
