import HeliosProxy.Lib.Lru
import HeliosProxy.Lib.Runs

/-!
# The registered cancel keys

A client's cancel request names the process id and the secret of a backend.  The proxy
keeps for each such pair where its backend is, for at most `maxCancelKeys` of them, and a
queue of the pairs in the order they were registered.  At capacity the oldest
registrations go first.

The queue holds every registration and the map every pair once.  A pair that is registered
again while it is in the map stands in the queue twice: the queue is no longer bounded by
the map, and the older of the two takes the pair out of the map when it comes to the front.
-/

namespace HeliosProxy.CancelMap

open Lru

/-- Process id and secret of a `BackendKeyData`. -/
structure CancelKey where
  pid : UInt32
  secret : UInt32
deriving DecidableEq

structure CancelTarget where
  node : String
  peer : Option String
deriving DecidableEq

structure CancelKeys where
  cancelMap : List (CancelKey × CancelTarget)
  cancelOrder : List CancelKey
deriving DecidableEq

abbrev Registration := CancelKey × CancelTarget

namespace CancelKeys

def empty : CancelKeys := ⟨[], []⟩

/-- The oldest registrations are removed until there is room.  With an empty queue the map
is cleared. -/
def evict (maxCancelKeys : Nat) (map : List (CancelKey × CancelTarget)) :
    List CancelKey → List CancelKey × List (CancelKey × CancelTarget)
  | [] => ([], if map.length < maxCancelKeys then map else [])
  | old :: order =>
    if map.length < maxCancelKeys then (old :: order, map) else evict maxCancelKeys (erase old map) order

def registerCancelKey (maxCancelKeys : Nat) (s : CancelKeys) (r : Registration) : CancelKeys :=
  let (order, map) := evict maxCancelKeys s.cancelMap s.cancelOrder
  ⟨insert r.1 r.2 map, order ++ [r.1]⟩

def step (maxCancelKeys : Nat) (s : CancelKeys) (r : Registration) : Option CancelKeys :=
  some (s.registerCancelKey maxCancelKeys r)

end CancelKeys

/-! ## What is registered -/

/-- The distinct keys of the registrations `past`, the last one first. -/
def recentKeys : List Registration → List CancelKey
  | [] => []
  | r :: past => r.1 :: (recentKeys past).filter (· ≠ r.1)

theorem nodup_recentKeys (past : List Registration) : (recentKeys past).Nodup := by
  induction past with
  | nil => exact List.nodup_nil
  | cons r past ih => exact List.nodup_cons.mpr ⟨by simp, ih.filter _⟩

theorem lookup_of_mem_recentKeys {k : CancelKey} {past : List Registration} (hm : k ∈ recentKeys past) :
    ∃ target, lookup k past = some target := by
  induction past with
  | nil => cases hm
  | cons r past ih =>
    by_cases hh : r.1 = k
    · exact ⟨r.2, by simp [lookup, hh]⟩
    · have hl : k ∈ recentKeys past := by
        rcases List.mem_cons.mp hm with hs | hm
        · exact absurd hs.symm hh
        · exact (List.mem_filter.mp hm).1
      obtain ⟨target, hf⟩ := ih hl
      exact ⟨target, by simpa [lookup, hh] using hf⟩

/-- At most `max` keys, and the last `max` that were registered with the target of their
latest registration. -/
structure CancelKeys.Current (max : Nat) (past : List Registration) (s : CancelKeys) : Prop where
  mapBounded : s.cancelMap.length ≤ max
  orderBounded : s.cancelOrder.length ≤ max
  latest : ∀ k ∈ (recentKeys past).take max, lookup k s.cancelMap = lookup k past

/-- A registration that leaves no pair in the queue twice: its pair is not in the map, or
is the one that makes room for it. -/
def CancelKeys.Unrepeated (max : Nat) (s : CancelKeys) (r : Registration) : Prop :=
  lookup r.1 s.cancelMap = none ∨ max ≤ s.cancelMap.length ∧ s.cancelOrder.head? = some r.1

instance (max : Nat) (s : CancelKeys) (r : Registration) : Decidable (s.Unrepeated max r) :=
  inferInstanceAs (Decidable (_ ∨ _))

/-- The queue is the last `max` distinct keys, and the map has these. -/
structure CancelKeys.Follows (max : Nat) (past : List Registration) (s : CancelKeys) : Prop where
  order : s.cancelOrder.reverse = (recentKeys past).take max
  keyed : Keyed s.cancelMap
  length : s.cancelMap.length = s.cancelOrder.length
  has : ∀ k, lookup k s.cancelMap = if k ∈ s.cancelOrder then lookup k past else none

namespace CancelKeys.Follows

variable {max : Nat} {past : List Registration} {s : CancelKeys}

theorem nodup (h : s.Follows max past) : s.cancelOrder.Nodup := by
  rw [← List.nodup_reverse, h.order]
  exact (nodup_recentKeys past).sublist (List.take_sublist _ _)

theorem orderBounded (h : s.Follows max past) : s.cancelOrder.length ≤ max := by
  rw [← List.length_reverse, h.order]
  exact List.length_take_le _ _

theorem current (h : s.Follows max past) : s.Current max past where
  mapBounded := h.length ▸ h.orderBounded
  orderBounded := h.orderBounded
  latest k hm := by rw [h.has, if_pos (List.mem_reverse.mp (h.order ▸ hm))]

variable {order : List CancelKey} {r : Registration}

theorem push {map : List (CancelKey × CancelTarget)}
    (hp : 0 < max) (hl : order.reverse = ((recentKeys past).filter (· ≠ r.1)).take (max - 1))
    (hk : Keyed map) (hle : map.length = order.length)
    (hh : ∀ k, lookup k map = if k ∈ order then lookup k past else none) :
    (⟨insert r.1 r.2 map, order ++ [r.1]⟩ : CancelKeys).Follows max (r :: past) := by
  have ha : r.1 ∉ order := by
    intro hm
    have ht : r.1 ∈ ((recentKeys past).filter (· ≠ r.1)).take (max - 1) := hl ▸ List.mem_reverse.mpr hm
    exact of_decide_eq_true (List.mem_filter.mp (List.mem_of_mem_take ht)).2 rfl
  refine ⟨?_, keyed_cons_erase hk, ?_, fun k => ?_⟩
  · obtain ⟨n, rfl⟩ := Nat.exists_eq_succ_of_ne_zero hp.ne'
    rw [List.reverse_append, hl]
    rfl
  · rw [Lru.insert, erase_of_lookup (by rw [hh, if_neg ha]), List.length_cons, hle, List.length_append]
    rfl
  · by_cases hs : k = r.1
    · subst hs
      rw [lookup_insert_self]
      simp [lookup]
    · have ho : lookup k (r :: past) = lookup k past := by simp [lookup, Ne.symm hs]
      rw [lookup_insert_of_ne hs, hh, ho]
      simp [hs]

theorem evict_room {map : List (CancelKey × CancelTarget)} (hr : map.length < max) :
    evict max map order = (order, map) := by
  cases order with
  | nil | cons old order => rw [evict, if_pos hr]

section

variable (h : s.Follows max past)
include h

theorem register_room (hr : s.cancelMap.length < max)
    (hf : r.1 ∉ s.cancelOrder) : (s.registerCancelKey max r).Follows max (r :: past) := by
  have hsh : s.cancelOrder.length < max := h.length ▸ hr
  have hw : (recentKeys past).take max = recentKeys past := by
    refine List.take_of_length_le (Nat.le_of_not_lt fun hl => ?_)
    have ht := List.length_take_of_le (Nat.le_of_lt hl)
    rw [← h.order, List.length_reverse] at ht
    omega
  have ho := h.order.trans hw
  have hot : (recentKeys past).filter (· ≠ r.1) = recentKeys past := by
    refine List.filter_eq_self.mpr fun k hm => decide_eq_true fun hs => hf ?_
    rw [← ho, List.mem_reverse] at hm
    exact hs ▸ hm
  rw [registerCancelKey, evict_room hr]
  refine push (by omega) ?_ h.keyed h.length h.has
  rw [hot, ← ho, List.take_of_length_le (by rw [List.length_reverse]; omega)]

theorem register_full {old : CancelKey}
    (hq : s.cancelOrder = old :: order) (hfu : max ≤ s.cancelMap.length) (hf : r.1 ∉ order) :
    (s.registerCancelKey max r).Follows max (r :: past) := by
  have hn := h.nodup
  have hr := h.order
  have hb := h.orderBounded
  have hl := h.length
  have hh := h.has
  rw [hq] at hn hr hb hl hh
  rw [List.length_cons] at hb hl
  obtain ⟨hno, hn⟩ := List.nodup_cons.mp hn
  have hk : old ∈ recentKeys past :=
    List.mem_of_mem_take (hr ▸ List.mem_reverse.mpr List.mem_cons_self : old ∈ (recentKeys past).take max)
  obtain ⟨target, hfo⟩ := lookup_of_mem_recentKeys hk
  have hsh := Lru.length_erase h.keyed ((hh old).trans (by rw [if_pos List.mem_cons_self, hfo]))
  have he : evict max s.cancelMap s.cancelOrder = (order, erase old s.cancelMap) := by
    rw [hq, evict, if_neg (by omega), evict_room (by omega)]
  have hsp : recentKeys past = order.reverse ++ ([old] ++ (recentKeys past).drop max) := by
    rw [← List.append_assoc, ← List.reverse_cons, hr, List.take_append_drop]
  rw [registerCancelKey, he]
  refine push (by omega) ?_ (keyed_erase h.keyed) (by omega) fun k => ?_
  · have ho : order.reverse.filter (· ≠ r.1) = order.reverse :=
      List.filter_eq_self.mpr fun k hm => decide_eq_true fun hs => hf (hs ▸ List.mem_reverse.mp hm)
    rw [hsp, List.filter_append, ho, List.take_left' (by rw [List.length_reverse]; omega)]
  · by_cases hs : k = old
    · rw [hs, lookup_erase_self, if_neg hno]
    · rw [lookup_erase_of_ne hs, hh]
      simp [hs]

theorem register (hp : 0 < max) (hu : s.Unrepeated max r) :
    (s.registerCancelKey max r).Follows max (r :: past) := by
  have ha (hn : lookup r.1 s.cancelMap = none) : r.1 ∉ s.cancelOrder := by
    intro hm
    rw [h.has, if_pos hm] at hn
    have hk : r.1 ∈ (recentKeys past).take max := h.order ▸ List.mem_reverse.mpr hm
    obtain ⟨target, hfo⟩ := lookup_of_mem_recentKeys (List.mem_of_mem_take hk)
    rw [hfo] at hn
    cases hn
  by_cases hr : s.cancelMap.length < max
  · rcases hu with hn | ⟨hfu, -⟩
    · exact h.register_room hr (ha hn)
    · omega
  · have hl := h.length
    cases hq : s.cancelOrder with
    | nil =>
      rw [hq, List.length_nil] at hl
      omega
    | cons old order =>
      refine h.register_full hq (by omega) ?_
      rcases hu with hn | ⟨-, hf⟩
      · exact fun hm => ha hn (hq ▸ List.mem_cons_of_mem _ hm)
      · rw [hq, List.head?_cons, Option.some.injEq] at hf
        exact hf ▸ (List.nodup_cons.mp (hq ▸ h.nodup)).1

theorem run (hp : 0 < max) {rs : List Registration} {s' : CancelKeys}
    (hu : Runs.Along (step max) (Unrepeated max) s rs) (hr : Runs.run (step max) s rs = some s') :
    s'.Follows max (rs.reverse ++ past) := by
  induction rs generalizing s past with
  | nil =>
    cases hr
    exact h
  | cons r rs ih =>
    rw [List.reverse_cons, List.append_assoc]
    exact ih (h.register hp hu.1) (hu.2 _ rfl) hr

end

end CancelKeys.Follows

theorem CancelKeys.follows_empty (max : Nat) : empty.Follows max [] :=
  ⟨List.take_nil.symm, List.nodup_nil, rfl, fun _ => rfl⟩

/-- However many keys are registered, at most `max` are kept, the last ones with their
latest targets, where no registration leaves its pair in the queue twice. -/
theorem cancelKeys_current (max : Nat) (hpositive : 1 ≤ max) (rs : List Registration) {s : CancelKeys}
    (hunrepeated : Runs.Along (CancelKeys.step max) (CancelKeys.Unrepeated max) .empty rs)
    (hran : Runs.run (CancelKeys.step max) .empty rs = some s) : s.Current max rs.reverse := by
  have hfollows := (CancelKeys.follows_empty max).run hpositive hunrepeated hran
  rw [List.append_nil] at hfollows
  exact hfollows.current

def keyOf (pid : UInt32) : CancelKey := ⟨pid, 0⟩

def targetOf (node : String) : CancelTarget := ⟨node, none⟩

/-- The first pair comes back when it is the next to go, with another target. -/
theorem cancelKeys_current_again :
    ∃ s, Runs.run (CancelKeys.step 2) .empty
        [(keyOf 1, targetOf "a"), (keyOf 2, targetOf "a"), (keyOf 1, targetOf "b")] = some s ∧
      s.cancelOrder = [keyOf 2, keyOf 1] ∧
      s.Current 2 [(keyOf 1, targetOf "b"), (keyOf 2, targetOf "a"), (keyOf 1, targetOf "a")] :=
  ⟨_, rfl, by decide, cancelKeys_current 2 (by decide)
    [(keyOf 1, targetOf "a"), (keyOf 2, targetOf "a"), (keyOf 1, targetOf "b")] (by decide) rfl⟩

/-- A pair that is registered over and over fills the queue.  One that is registered again
behind another is taken out of the map before it. -/
theorem not_cancelKeys_current :
    (∃ s, Runs.run (CancelKeys.step 2) .empty (List.replicate 3 (keyOf 1, targetOf "a")) = some s ∧
      s.cancelOrder.length = 3) ∧
    ∃ s, Runs.run (CancelKeys.step 3) .empty
        [(keyOf 1, targetOf "a"), (keyOf 2, targetOf "a"), (keyOf 1, targetOf "b"), (keyOf 3, targetOf "a"),
          (keyOf 4, targetOf "a")] = some s ∧
      keyOf 1 ∈ (recentKeys [(keyOf 4, targetOf "a"), (keyOf 3, targetOf "a"), (keyOf 1, targetOf "b"),
        (keyOf 2, targetOf "a"), (keyOf 1, targetOf "a")]).take 3 ∧
      lookup (keyOf 1) s.cancelMap = none :=
  ⟨⟨_, rfl, by decide⟩, _, rfl, by decide, by decide⟩

end HeliosProxy.CancelMap
