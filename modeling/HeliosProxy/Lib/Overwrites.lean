import Mathlib

/-!
# Overwrites

Items that each write values at some keys, one after another: at a key the last item
that writes there decides, so that items may be dropped, replaced or moved where none
of the others that write the key stand in between.
-/

namespace HeliosProxy.Overwrites

open List Function

variable {ι K V : Type*} [DecidableEq K] {writes : ι → List (K × V)}

def overwrite (σ : K → V) (ws : List (K × V)) : K → V :=
  ws.foldl (fun σ p => update σ p.1 p.2) σ

def keys (ws : List (K × V)) : List K := ws.map Prod.fst

@[simp] theorem overwrite_cons (σ : K → V) (p : K × V) (ws : List (K × V)) :
    overwrite σ (p :: ws) = overwrite (update σ p.1 p.2) ws := rfl

theorem overwrite_append (σ : K → V) (ws vs : List (K × V)) :
    overwrite σ (ws ++ vs) = overwrite (overwrite σ ws) vs := foldl_append

variable {ws : List (K × V)} {k : K}

theorem overwrite_of_notMem (h : k ∉ keys ws) (σ : K → V) :
    overwrite σ ws k = σ k := by
  induction ws generalizing σ with
  | nil => rfl
  | cons p ws ih =>
    obtain ⟨hp, hws⟩ := ne_and_not_mem_of_not_mem_cons h
    rw [overwrite_cons, ih hws, update_of_ne hp]

theorem overwrite_congr {σ σ' : K → V} (ws : List (K × V)) (h : k ∉ keys ws → σ k = σ' k) :
    overwrite σ ws k = overwrite σ' ws k := by
  induction ws generalizing σ σ' with
  | nil => exact h not_mem_nil
  | cons p ws ih =>
    rw [overwrite_cons, overwrite_cons]
    refine ih fun hws => ?_
    by_cases hp : k = p.1
    · rw [hp, update_self, update_self]
    · rw [update_of_ne hp, update_of_ne hp]
      exact h (not_mem_cons_of_ne_of_not_mem hp hws)

theorem overwrite_of_mem {f : K → V} (h : ∀ p ∈ ws, p.2 = f p.1) (hk : k ∈ keys ws)
    (σ : K → V) : overwrite σ ws k = f k := by
  induction ws generalizing σ with
  | nil => cases hk
  | cons p ws ih =>
    have hws := ih fun q hq => h q (mem_cons_of_mem _ hq)
    rw [overwrite_cons]
    by_cases hmem : k ∈ keys ws
    · exact hws hmem _
    · obtain rfl := (mem_cons.mp hk).resolve_right hmem
      rw [overwrite_of_notMem hmem, update_self, h p mem_cons_self]

variable {l : List ι}

omit [DecidableEq K] in
theorem notMem_keys_flatMap (h : ∀ i ∈ l, k ∉ keys (writes i)) :
    k ∉ keys (l.flatMap writes) := by
  rw [keys, map_flatMap, mem_flatMap]
  rintro ⟨i, hi, hk⟩
  exact h i hi hk

theorem overwrite_filter {p : ι → Bool}
    (h : ∀ i ∈ l, p i = false → k ∉ keys (writes i)) (σ : K → V) :
    overwrite σ ((l.filter p).flatMap writes) k = overwrite σ (l.flatMap writes) k := by
  induction l generalizing σ with
  | nil => rfl
  | cons i l ih =>
    have hl := ih fun j hj => h j (mem_cons_of_mem _ hj)
    rw [filter_cons, flatMap_cons, overwrite_append]
    split
    · rw [flatMap_cons, overwrite_append, hl]
    · rename_i hi
      rw [hl]
      exact overwrite_congr _ fun _ =>
        (overwrite_of_notMem (h i mem_cons_self (Bool.not_eq_true _ ▸ hi)) σ).symm

variable {j : ι}

/-- An item that is replaced by one that writes no less, in front of items that write
none of its keys. -/
theorem overwrite_replace {a b : List ι} {i : ι} {σ τ : K → V}
    (hsub : keys (writes i) ⊆ keys (writes j))
    (hb : ∀ x ∈ b, k ∈ keys (writes j) → k ∉ keys (writes x))
    (h : k ∉ keys (writes j) → overwrite σ ((a ++ i :: b).flatMap writes) k = τ k) :
    overwrite σ ((a ++ j :: b).flatMap writes) k = overwrite τ (writes j) k := by
  simp only [flatMap_append, flatMap_cons, overwrite_append] at h ⊢
  by_cases hj : k ∈ keys (writes j)
  · rw [overwrite_of_notMem (notMem_keys_flatMap fun x hx => hb x hx hj)]
    exact overwrite_congr _ fun hk => absurd hj hk
  · rw [overwrite_of_notMem hj, ← h hj]
    refine overwrite_congr _ fun _ => ?_
    rw [overwrite_of_notMem hj, overwrite_of_notMem fun hi => hj (hsub hi)]

theorem overwrite_concat {σ τ : K → V}
    (h : k ∉ keys (writes j) → overwrite σ (l.flatMap writes) k = τ k) :
    overwrite σ ((l ++ [j]).flatMap writes) k = overwrite τ (writes j) k := by
  rw [flatMap_append, flatMap_singleton, overwrite_append]
  exact overwrite_congr _ h

end HeliosProxy.Overwrites
