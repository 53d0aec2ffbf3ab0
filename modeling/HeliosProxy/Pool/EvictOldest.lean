import HeliosProxy.Pool.IdlePool

/-!
# Which connection makes room

`evict_one_idle_for_node` closes the front of the first list it meets.  That is the
connection parked longest under one identity, not the one parked longest for the node.
-/

namespace HeliosProxy.Pool

open Text

variable {ι C : Type}

/-- A key is the node, a NUL and the rest of the identity. -/
def keyOfNode (node key : Str) : Bool := (node ++ ['\x00']).isPrefixOf key

abbrev Idle (ι C : Type) := List (Str × List (Parked ι C))

/-- What is closed, and what stays.  The entries are in the order in which the iteration
meets them. -/
def evictOneIdleForNode (node : Str) : Idle ι C → Option (Parked ι C) × Idle ι C
  | [] => (none, [])
  | (key, parked) :: idle =>
    if !keyOfNode node key || parked.isEmpty then
      let (closed, idle) := evictOneIdleForNode node idle
      (closed, (key, parked) :: idle)
    else (parked.head?, (key, parked.tail) :: idle)

def ParkedFor (node : Str) (idle : Idle ι C) (p : Parked ι C) : Prop := ∃ e ∈ idle, keyOfNode node e.1 ∧ p ∈ e.2

/-- One connection of the node is closed, a longest parked one; none if there is none. -/
structure EvictsOldest (node : Str) (idle : Idle ι C) : Prop where
  closed : ∀ p ∈ (evictOneIdleForNode node idle).1, ∃ front key parked behind,
    idle = front ++ (key, p :: parked) :: behind ∧ keyOfNode node key ∧
      (evictOneIdleForNode node idle).2 = front ++ (key, parked) :: behind
  oldest : ∀ p ∈ (evictOneIdleForNode node idle).1, ∀ q, ParkedFor node idle q → p.parkedAt ≤ q.parkedAt
  refused : (evictOneIdleForNode node idle).1 = none ↔ ∀ q, ¬ParkedFor node idle q
  kept : (evictOneIdleForNode node idle).1 = none → (evictOneIdleForNode node idle).2 = idle

variable {node key : Str} {idle front behind : Idle ι C} {p q : Parked ι C} {parked : List (Parked ι C)}

@[simp] theorem parkedFor_cons {e : Str × List (Parked ι C)} :
    ParkedFor node (e :: idle) q ↔ (keyOfNode node e.1 ∧ q ∈ e.2) ∨ ParkedFor node idle q := by
  simp [ParkedFor]

@[simp] theorem parkedFor_append : ParkedFor node (front ++ idle) q ↔ ParkedFor node front q ∨ ParkedFor node idle q := by
  simp [ParkedFor, or_and_right, exists_or]

theorem evictOneIdleForNode_append (hn : ∀ q, ¬ParkedFor node front q) (idle : Idle ι C) :
    evictOneIdleForNode node (front ++ idle) =
      ((evictOneIdleForNode node idle).1, front ++ (evictOneIdleForNode node idle).2) := by
  induction front with
  | nil => rfl
  | cons e front ih =>
    obtain ⟨key, parked⟩ := e
    simp only [parkedFor_cons, not_or, forall_and] at hn
    have hs : !keyOfNode node key || parked.isEmpty := by
      cases parked with
      | nil => simp
      | cons p parked => simpa using hn.1 p
    rw [List.cons_append, evictOneIdleForNode, if_pos hs, ih hn.2]
    rfl

theorem evictOneIdleForNode_first (hkey : keyOfNode node key) (hn : ∀ q, ¬ParkedFor node front q) :
    evictOneIdleForNode node (front ++ (key, p :: parked) :: behind) = (some p, front ++ (key, parked) :: behind) := by
  rw [evictOneIdleForNode_append hn, evictOneIdleForNode, if_neg (by simpa using hkey)]
  rfl

theorem parkedFor_first (node : Str) (idle : Idle ι C) :
    (∀ q, ¬ParkedFor node idle q) ∨ ∃ front key p parked behind, idle = front ++ (key, p :: parked) :: behind ∧
      keyOfNode node key ∧ ∀ q, ¬ParkedFor node front q := by
  induction idle with
  | nil => exact .inl fun q => by simp [ParkedFor]
  | cons e idle ih =>
    obtain ⟨key, parked⟩ := e
    by_cases hs : keyOfNode node key ∧ parked ≠ []
    · obtain ⟨p, parked, rfl⟩ := List.exists_cons_of_ne_nil hs.2
      exact .inr ⟨[], key, p, parked, idle, rfl, hs.1, fun q => by simp [ParkedFor]⟩
    · have hp (q) : ¬(keyOfNode node key ∧ q ∈ parked) := fun h => hs ⟨h.1, List.ne_nil_of_mem h.2⟩
      obtain hn | ⟨front, key', p, rest, behind, rfl, hkey, hn⟩ := ih
      · exact .inl fun q => by simp [hp, hn]
      · exact .inr ⟨(key, parked) :: front, key', p, rest, behind, rfl, hkey, fun q => by simp [hp, hn]⟩

theorem evictsOldest_iff :
    EvictsOldest node idle ↔ ∀ front key p parked behind, idle = front ++ (key, p :: parked) :: behind →
      keyOfNode node key → (∀ q, ¬ParkedFor node front q) →
      ∀ q, q ∈ parked ∨ ParkedFor node behind q → p.parkedAt ≤ q.parkedAt := by
  constructor
  · rintro h front key p parked behind rfl hkey hnothing q hq
    refine h.oldest p (by rw [evictOneIdleForNode_first hkey hnothing]; rfl) q ?_
    simp only [parkedFor_append, parkedFor_cons, List.mem_cons]
    tauto
  · intro h
    obtain hnothing | ⟨front, key, p, parked, behind, rfl, hkey, hnothing⟩ := parkedFor_first node idle
    · have hsame := evictOneIdleForNode_append hnothing []
      rw [List.append_nil] at hsame
      constructor <;> simp [hsame, hnothing, evictOneIdleForNode]
    · have hsame : evictOneIdleForNode node _ = (some p, front ++ (key, parked) :: behind) :=
        evictOneIdleForNode_first hkey hnothing
      refine ⟨?_, ?_, ?_, ?_⟩ <;> rw [hsame]
      · rintro _ ⟨⟩
        exact ⟨front, key, parked, behind, rfl, hkey, rfl⟩
      · rintro _ ⟨⟩ q hq
        simp only [parkedFor_append, parkedFor_cons, List.mem_cons, hnothing, false_or] at hq
        obtain ⟨-, rfl | hq⟩ | hq := hq
        · exact le_rfl
        · exact h front key p parked behind rfl hkey hnothing q (.inl hq)
        · exact h front key p parked behind rfl hkey hnothing q (.inr hq)
      · refine iff_of_false (by simp) fun hnone => hnone p ?_
        simp [hkey]
      · simp

/-- Two users at one node, the second one's connection parked before the first one's. -/
theorem evicts_younger :
    ¬EvictsOldest "n" [("n\x00a", [(⟨(), 9, 1⟩ : Parked Nat Unit)]), ("n\x00b", [⟨(), 4, 0⟩])] := by
  intro h
  exact absurd (h.oldest ⟨(), 9, 1⟩ rfl ⟨(), 4, 0⟩ ⟨_, .tail _ (.head _), by decide, .head _⟩) (by decide)

end HeliosProxy.Pool
