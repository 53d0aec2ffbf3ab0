import HeliosProxy.Lib.Runs

/-!
# The waits that a cancel request may end

`TenantSlots` keeps, under every key that a backend gave out, how many live sessions were
told the key and the waits those sessions have at their tenant's cap.  Each of its
functions runs under the lock of the key's shard.  A session is told a key, registers and
unregisters waits under it, and ends; a cancel request may name any key at any time.
-/

namespace HeliosProxy.Tenancy

open Runs List Option Function

/-! ## The registry -/

/-- `KeyHolders`; a wait is named by a number, as its `Arc` is by an address. -/
structure KeyHolders where
  sessions : Nat
  waits : List Nat
deriving DecidableEq

/-- `position` and `swap_remove`: the last wait takes the place of `x`. -/
def swapRemove (x : Nat) (l : List Nat) : List Nat :=
  match l.dropWhile (· != x) with
  | [] => l
  | _ :: behind => l.takeWhile (· != x) ++ (behind.getLast?.toList ++ behind.dropLast)

variable {S K : Type} [DecidableEq K]

/-- `cancel_keys`. -/
abbrev CancelKeys (K : Type) := K → Option KeyHolders

namespace CancelKeys

variable (reg : CancelKeys K) (key : K)

/-- `entry(key).or_default()`. -/
def orDefault (f : KeyHolders → KeyHolders) : CancelKeys K :=
  update reg key (some (f ((reg key).getD ⟨0, []⟩)))

def occupied (f : KeyHolders → KeyHolders) : CancelKeys K :=
  match reg key with
  | none => reg
  | some holders =>
    let holders := f holders
    update reg key (if holders.sessions = 0 ∧ holders.waits = [] then none else some holders)

def sessionKeyRelayed (track : Bool) : CancelKeys K :=
  if track then reg.orDefault key fun h => { h with sessions := h.sessions + 1 } else reg

def sessionKeyEnded (track : Bool) : CancelKeys K :=
  if !track then reg else reg.occupied key fun h => { h with sessions := h.sessions - 1 }

def registerQueryWait (wait : Nat) : CancelKeys K :=
  reg.orDefault key fun h => { h with waits := h.waits ++ [wait] }

/-- The part of `unregister_query_wait` under the lock. -/
def unregisterQueryWait (wait : Nat) : CancelKeys K :=
  reg.occupied key fun h => { h with waits := swapRemove wait h.waits }

/-- `cancel_query_wait`, with the wait it claims. -/
def cancelQueryWait : Option Nat × CancelKeys K :=
  match reg key with
  | none => (none, reg)
  | some holders =>
    if holders.sessions ≠ 1 then (none, reg)
    else
      match holders.waits with
      | [wait] => (some wait, update reg key (some { holders with waits := [] }))
      | _ => (none, reg)

end CancelKeys

/-! ## Sessions and cancels -/

structure QueryWait (S K : Type) where
  id : Nat
  session : S
  key : K
deriving DecidableEq

structure Cancels (S K : Type) where
  registry : CancelKeys K
  /-- The live sessions that were told a key. -/
  live : List (S × K)
  /-- The waits that are registered. -/
  waits : List (QueryWait S K)
  /-- Those whose entry is gone and whose flag is not read yet. -/
  leaving : List Nat
  /-- What `unregister_query_wait` has returned. -/
  reports : List (Nat × Bool)
  /-- The waits whose flag is set, once for each cancel that has set it. -/
  claimed : List Nat
  next : Nat

inductive CancelEvent (S K : Type)
  | relayed (s : S) (key : K)
  | ended (s : S)
  | register (s : S)
  | unregister (wait : Nat)
  /-- The flag of a wait is read at the end of `unregister_query_wait`. -/
  | report (wait : Nat)
  | cancel (key : K)

def Cancels.start : Cancels S K := ⟨fun _ => none, [], [], [], [], [], 0⟩

def Cancels.step [DecidableEq S] (track : Bool) (w : Cancels S K) : CancelEvent S K → Option (Cancels S K)
  | .relayed s key =>
    if w.live.any (·.1 = s) then none
    else some { w with registry := w.registry.sessionKeyRelayed key track, live := (s, key) :: w.live }
  | .ended s =>
    match w.live.find? (·.1 = s) with
    | none => none
    | some (_, key) =>
      some { w with
        registry := w.registry.sessionKeyEnded key track
        live := w.live.filter (·.1 ≠ s) }
  | .register s =>
    match w.live.find? (·.1 = s) with
    | none => none
    | some (_, key) =>
      some { w with
        registry := w.registry.registerQueryWait key w.next
        waits := ⟨w.next, s, key⟩ :: w.waits
        next := w.next + 1 }
  | .unregister id =>
    match w.waits.find? (·.id = id) with
    | none => none
    | some wait =>
      some { w with
        registry := w.registry.unregisterQueryWait wait.key id
        waits := w.waits.filter (·.id ≠ id)
        leaving := id :: w.leaving }
  | .report id =>
    if id ∈ w.leaving then
      some { w with leaving := w.leaving.erase id, reports := (id, w.claimed.contains id) :: w.reports }
    else none
  | .cancel key =>
    match w.registry.cancelQueryWait key with
    | (none, registry) => some { w with registry }
    | (some wait, registry) => some { w with registry, claimed := wait :: w.claimed }

/-- A session ends only behind its waits, not in the middle of one by a panic. -/
def Cancels.EndsUnwaited [DecidableEq S] (w : Cancels S K) : CancelEvent S K → Prop
  | .ended s => w.waits.any (·.session = s) = false
  | _ => True

instance [DecidableEq S] (w : Cancels S K) (e : CancelEvent S K) : Decidable (w.EndsUnwaited e) := by
  cases e <;> unfold Cancels.EndsUnwaited <;> infer_instance

/-! ## What an entry holds -/

theorem swapRemove_perm (x : Nat) (l : List Nat) : (swapRemove x l).Perm (l.erase x) := by
  have hsp : l.takeWhile (· != x) ++ l.dropWhile (· != x) = l := takeWhile_append_dropWhile
  unfold swapRemove
  split
  case h_1 hn =>
    have ha : x ∉ l := by
      intro hm
      have hk := dropWhile_eq_nil_iff.mp hn x hm
      simp at hk
    rw [erase_of_not_mem ha]
  case h_2 y behind hf =>
    obtain rfl : y = x := by
      have hs := head?_dropWhile_not (· != x) l
      rw [hf] at hs
      simpa using hs
    have ha : y ∉ l.takeWhile (· != y) := by
      intro hm
      have hk := mem_takeWhile_imp hm
      simp at hk
    have he : l.erase y = l.takeWhile (· != y) ++ behind := by
      conv => lhs; rw [← hsp, hf]
      rw [erase_append_right _ ha, erase_cons_head]
    rw [he]
    refine Perm.append_left _ ?_
    cases hl : behind.getLast? with
    | none =>
      rw [getLast?_eq_none_iff.mp hl]
      rfl
    | some z =>
      have hj := dropLast_append_getLast? z hl
      conv => rhs; rw [← hj]
      exact (perm_append_singleton z behind.dropLast).symm

section Registry

variable {reg : CancelKeys K} {key : K} {f : KeyHolders → KeyHolders}

def CancelKeys.holders (reg : CancelKeys K) (key : K) : KeyHolders := (reg key).getD ⟨0, []⟩

def CancelKeys.Tidy (reg : CancelKeys K) : Prop :=
  ∀ key h, reg key = some h → ¬ (h.sessions = 0 ∧ h.waits = [])

theorem holders_update (entry : Option KeyHolders) (key' : K) :
    CancelKeys.holders (update reg key entry) key' = if key' = key then entry.getD ⟨0, []⟩ else reg.holders key' := by
  unfold CancelKeys.holders
  split
  case isTrue hs => rw [hs, update_self]
  case isFalse ho => rw [update_of_ne ho]

theorem tidy_update {entry : Option KeyHolders} (ht : reg.Tidy)
    (hf : ∀ h, entry = some h → ¬ (h.sessions = 0 ∧ h.waits = [])) : CancelKeys.Tidy (update reg key entry) := by
  intro key' h hh
  by_cases hs : key' = key
  · rw [hs, update_self] at hh
    exact hf h hh
  · rw [update_of_ne hs] at hh
    exact ht key' h hh

theorem tidy_orDefault (ht : reg.Tidy)
    (hm : ¬ ((f (reg.holders key)).sessions = 0 ∧ (f (reg.holders key)).waits = [])) :
    (reg.orDefault key f).Tidy :=
  tidy_update ht fun _ hh => Option.some.inj hh ▸ hm

theorem holders_occupied (hn : f ⟨0, []⟩ = ⟨0, []⟩) (key' : K) :
    (reg.occupied key f).holders key' = if key' = key then f (reg.holders key) else reg.holders key' := by
  unfold CancelKeys.occupied
  split
  case h_1 ha =>
    split
    case isTrue hs => rw [hs, CancelKeys.holders, ha, getD_none, hn]
    case isFalse => rfl
  case h_2 h he =>
    have hl : f (reg.holders key) = f h := by rw [CancelKeys.holders, he, getD_some]
    rw [holders_update, hl]
    split
    · cases f h with
      | mk sessions waits => split <;> simp_all
    · rfl

theorem tidy_occupied (ht : reg.Tidy) : (reg.occupied key f).Tidy := by
  unfold CancelKeys.occupied
  split
  · exact ht
  · refine tidy_update ht fun h hh => ?_
    obtain ⟨hf, ⟨⟩⟩ := ite_none_left_eq_some.mp hh
    exact hf

theorem tidy_relayed (track : Bool) (ht : reg.Tidy) : (reg.sessionKeyRelayed key track).Tidy := by
  unfold CancelKeys.sessionKeyRelayed
  split
  · refine tidy_orDefault ht ?_
    rintro ⟨hn, -⟩
    cases hn
  · exact ht

theorem tidy_ended (track : Bool) (ht : reg.Tidy) : (reg.sessionKeyEnded key track).Tidy := by
  unfold CancelKeys.sessionKeyEnded
  split
  · exact ht
  · exact tidy_occupied ht

theorem tidy_registered (wait : Nat) (ht : reg.Tidy) : (reg.registerQueryWait key wait).Tidy := by
  refine tidy_orDefault ht ?_
  rintro ⟨-, hn⟩
  exact append_ne_nil_of_right_ne_nil _ (cons_ne_nil _ _) hn

theorem cancelQueryWait_cases (reg : CancelKeys K) (key : K) :
    reg.cancelQueryWait key = (none, reg) ∨
      ∃ wait reg', reg.cancelQueryWait key = (some wait, reg') ∧ reg.holders key = ⟨1, [wait]⟩ ∧
        (reg.Tidy → reg'.Tidy) ∧
        ∀ key', reg'.holders key' = if key' = key then ⟨1, []⟩ else reg.holders key' := by
  unfold CancelKeys.cancelQueryWait
  split
  case h_1 => exact .inl rfl
  case h_2 h he =>
    split
    case isTrue => exact .inl rfl
    case isFalse hone =>
      split
      case h_2 => exact .inl rfl
      case h_1 wait hw =>
        obtain ⟨sessions, _⟩ := h
        obtain rfl : sessions = 1 := not_not.mp hone
        obtain rfl : _ = [wait] := hw
        refine .inr ⟨wait, _, rfl, by rw [CancelKeys.holders, he, getD_some], ?_, fun key' => ?_⟩
        · exact fun ht => tidy_update ht fun _ hh => Option.some.inj hh ▸ by simp
        · exact holders_update _ key'

end Registry

/-! ## The invariant -/

variable (track : Bool)

def Cancels.Waiting (w : Cancels S K) (key : K) (id : Nat) : Prop :=
  (∃ wait ∈ w.waits, wait.id = id ∧ wait.key = key) ∧ id ∉ w.claimed

def Cancels.counted (w : Cancels S K) (key : K) : Nat := if track then w.live.countP (·.2 = key) else 0

structure Cancels.Inv (w : Cancels S K) : Prop where
  tidy : w.registry.Tidy
  sessions : ∀ key, (w.registry.holders key).sessions = w.counted track key
  nodup : ∀ key, (w.registry.holders key).waits.Nodup
  waits : ∀ key id, id ∈ (w.registry.holders key).waits ↔ w.Waiting key id
  names : (w.live.map Prod.fst).Nodup
  owners : ∀ wait ∈ w.waits, (wait.session, wait.key) ∈ w.live
  ids : (w.waits.map QueryWait.id).Nodup
  fresh : ∀ wait ∈ w.waits, wait.id < w.next
  known : ∀ id ∈ w.claimed, id < w.next
  once : w.claimed.Nodup
  gone : ∀ id, id ∈ w.leaving ∨ id ∈ w.reports.map Prod.fst → id < w.next ∧ ∀ wait ∈ w.waits, wait.id ≠ id
  reported : ∀ p ∈ w.reports, p.2 = true ↔ p.1 ∈ w.claimed

theorem Cancels.Inv.start : (Cancels.start : Cancels S K).Inv track where
  tidy _ _ he := by cases he
  sessions _ := by
    unfold counted
    split <;> rfl
  nodup _ := nodup_nil
  waits _ _ := ⟨fun hm => absurd hm not_mem_nil, fun ⟨⟨_, hm, _⟩, _⟩ => absurd hm not_mem_nil⟩
  names := nodup_nil
  owners _ hm := absurd hm not_mem_nil
  ids := nodup_nil
  fresh _ hm := absurd hm not_mem_nil
  known _ hm := absurd hm not_mem_nil
  once := nodup_nil
  gone _ hm := by rcases hm with hm | hm <;> cases hm
  reported _ hm := absurd hm not_mem_nil

variable {track} {w : Cancels S K} {s : S}

theorem Cancels.Inv.relayed [DecidableEq S] (hi : w.Inv track) (key : K) (hn : w.live.any (·.1 = s) = false) :
    Cancels.Inv track
      { w with registry := w.registry.sessionKeyRelayed key track, live := (s, key) :: w.live } := by
  have holders (key' : K) : (w.registry.sessionKeyRelayed key track).holders key' =
      { w.registry.holders key' with
        sessions := (w.registry.holders key').sessions + if track ∧ key = key' then 1 else 0 } := by
    unfold CancelKeys.sessionKeyRelayed
    cases track with
    | false => simp
    | true =>
      rw [if_pos rfl, CancelKeys.orDefault, holders_update]
      split
      · next hs =>
        subst hs
        simp [CancelKeys.holders]
      · next ho => simp [Ne.symm ho]
  have ha : s ∉ w.live.map Prod.fst := by
    intro hm
    obtain ⟨p, hh, rfl⟩ := List.mem_map.mp hm
    rw [List.any_eq_false] at hn
    exact hn p hh (decide_eq_true rfl)
  refine { hi with
    tidy := tidy_relayed track hi.tidy
    sessions := fun key' => ?_
    nodup := fun key' => ?_
    waits := fun key' id => ?_
    names := nodup_cons.mpr ⟨ha, hi.names⟩
    owners := fun wait hm => mem_cons_of_mem _ (hi.owners wait hm) }
  · rw [holders, hi.sessions]
    unfold counted
    cases track with
    | false => rfl
    | true => simp [countP_cons]
  · rw [holders]
    exact hi.nodup key'
  · rw [holders]
    exact hi.waits key' id

variable {key : K}

/-- The keys of the live sessions without `s`. -/
theorem countP_live [DecidableEq S] {live : List (S × K)} (hn : (live.map Prod.fst).Nodup)
    (hm : (s, key) ∈ live) (key' : K) :
    (live.filter (·.1 ≠ s)).countP (·.2 = key') + (if key = key' then 1 else 0) = live.countP (·.2 = key') := by
  induction live with
  | nil => cases hm
  | cons p live ih =>
    rw [map_cons, nodup_cons] at hn
    rcases mem_cons.mp hm with rfl | hl
    · have ho : live.filter (·.1 ≠ s) = live := by
        rw [filter_eq_self]
        intro p hh
        refine decide_eq_true fun hs => hn.1 ?_
        rw [← hs]
        exact List.mem_map.mpr ⟨p, hh, rfl⟩
      rw [filter_cons_of_neg (by simp), ho, countP_cons]
      simp
    · have hot : p.1 ≠ s := fun hs => hn.1 (hs ▸ List.mem_map_of_mem hl)
      rw [filter_cons_of_pos (by simpa using hot), countP_cons, countP_cons, ← ih hn.2 hl]
      omega

theorem Cancels.Inv.ended [DecidableEq S] (hi : w.Inv track) (hh : (s, key) ∈ w.live)
    (hid : w.waits.any (·.session = s) = false) :
    Cancels.Inv track
      { w with registry := w.registry.sessionKeyEnded key track, live := w.live.filter (·.1 ≠ s) } := by
  have holders (key' : K) : (w.registry.sessionKeyEnded key track).holders key' =
      { w.registry.holders key' with
        sessions := (w.registry.holders key').sessions - if track ∧ key = key' then 1 else 0 } := by
    unfold CancelKeys.sessionKeyEnded
    cases track with
    | false => simp
    | true =>
      rw [if_neg (by simp), holders_occupied rfl]
      split
      · next hs =>
        subst hs
        simp
      · next ho => simp [Ne.symm ho]
  refine { hi with
    tidy := tidy_ended track hi.tidy
    sessions := fun key' => ?_
    nodup := fun key' => ?_
    waits := fun key' id => ?_
    names := hi.names.sublist (filter_sublist.map _)
    owners := fun wait hm => ?_ }
  · rw [holders, hi.sessions]
    unfold counted
    cases track with
    | false => rfl
    | true =>
      have hc := countP_live hi.names hh key'
      simp only [true_and, if_true]
      omega
  · rw [holders]
    exact hi.nodup key'
  · rw [holders]
    exact hi.waits key' id
  · refine mem_filter.mpr ⟨hi.owners wait hm, ?_⟩
    rw [List.any_eq_false] at hid
    exact decide_eq_true fun hs => hid wait hm (decide_eq_true hs)

theorem Cancels.Inv.register (hi : w.Inv track) (hh : (s, key) ∈ w.live) :
    Cancels.Inv track
      { w with
        registry := w.registry.registerQueryWait key w.next
        waits := ⟨w.next, s, key⟩ :: w.waits
        next := w.next + 1 } := by
  have hunc : w.next ∉ w.claimed := fun hm => lt_irrefl _ (hi.known _ hm)
  have hun : w.next ∉ w.waits.map QueryWait.id := by
    intro hm
    obtain ⟨wait, hm, hs⟩ := List.mem_map.mp hm
    exact lt_irrefl _ (hs ▸ hi.fresh wait hm)
  have hne (key' : K) : w.next ∉ (w.registry.holders key').waits := by
    rw [hi.waits]
    rintro ⟨⟨wait, hm, hs, -⟩, -⟩
    exact hun (hs ▸ List.mem_map_of_mem hm)
  have holders (key' : K) : (w.registry.registerQueryWait key w.next).holders key' =
      if key' = key then { w.registry.holders key with waits := (w.registry.holders key).waits ++ [w.next] }
      else w.registry.holders key' := holders_update _ key'
  refine { hi with
    tidy := tidy_registered _ hi.tidy
    sessions := fun key' => ?_
    nodup := fun key' => ?_
    waits := fun key' id => ?_
    owners := fun wait hm => ?_
    ids := nodup_cons.mpr ⟨hun, hi.ids⟩
    fresh := fun wait hm => ?_
    known := fun id hm => Nat.lt_succ_of_lt (hi.known id hm)
    gone := fun id hm => ?_ }
  · show ((w.registry.registerQueryWait key w.next).holders key').sessions = w.counted track key'
    rw [← hi.sessions, holders]
    split
    · next hs => rw [hs]
    · rfl
  · rw [holders]
    split
    · exact nodup_append_comm.mpr (nodup_cons.mpr ⟨hne key, hi.nodup key⟩)
    · exact hi.nodup key'
  · rw [holders]
    split
    · next hs =>
      subst hs
      rw [mem_append, mem_singleton, hi.waits]
      constructor
      · rintro (⟨⟨wait, hm, hn⟩, hf⟩ | rfl)
        · exact ⟨⟨wait, mem_cons_of_mem _ hm, hn⟩, hf⟩
        · exact ⟨⟨_, mem_cons_self, rfl, rfl⟩, hunc⟩
      · rintro ⟨⟨wait, hm, hn, hu⟩, hf⟩
        rcases mem_cons.mp hm with rfl | hm
        · exact .inr hn.symm
        · exact .inl ⟨⟨wait, hm, hn, hu⟩, hf⟩
    · next ho =>
      rw [hi.waits]
      constructor
      · rintro ⟨⟨wait, hm, hn⟩, hf⟩
        exact ⟨⟨wait, mem_cons_of_mem _ hm, hn⟩, hf⟩
      · rintro ⟨⟨wait, hm, hn, hu⟩, hf⟩
        rcases mem_cons.mp hm with rfl | hm
        · exact absurd hu.symm ho
        · exact ⟨⟨wait, hm, hn, hu⟩, hf⟩
  · rcases mem_cons.mp hm with rfl | hm
    · exact hh
    · exact hi.owners wait hm
  · rcases mem_cons.mp hm with rfl | hm
    · exact Nat.lt_succ_self _
    · exact Nat.lt_succ_of_lt (hi.fresh wait hm)
  · obtain ⟨hsm, hg⟩ := hi.gone id hm
    refine ⟨Nat.lt_succ_of_lt hsm, fun wait hm => ?_⟩
    rcases mem_cons.mp hm with rfl | hm
    · exact ne_of_gt hsm
    · exact hg wait hm

omit [DecidableEq K] in
theorem Cancels.Inv.eq_of_id (hi : (w.waits.map QueryWait.id).Nodup) {a b : QueryWait S K}
    (ha : a ∈ w.waits) (hb : b ∈ w.waits) (hs : a.id = b.id) : a = b :=
  inj_on_of_nodup_map hi ha hb hs

theorem Cancels.Inv.unregister (hi : w.Inv track) {wait : QueryWait S K} (hm : wait ∈ w.waits) :
    Cancels.Inv track
      { w with
        registry := w.registry.unregisterQueryWait wait.key wait.id
        waits := w.waits.filter (·.id ≠ wait.id)
        leaving := wait.id :: w.leaving } := by
  have holders (key' : K) : (w.registry.unregisterQueryWait wait.key wait.id).holders key' =
      if key' = wait.key then
        { w.registry.holders wait.key with waits := swapRemove wait.id (w.registry.holders wait.key).waits }
      else w.registry.holders key' := holders_occupied rfl key'
  have hw (key' : K) (id : Nat) :
      (∃ other ∈ w.waits.filter (·.id ≠ wait.id), other.id = id ∧ other.key = key') ∧ id ∉ w.claimed ↔
        w.Waiting key' id ∧ id ≠ wait.id := by
    constructor
    · rintro ⟨⟨other, hh, rfl, hu⟩, hf⟩
      obtain ⟨hh, ha⟩ := mem_filter.mp hh
      exact ⟨⟨⟨other, hh, rfl, hu⟩, hf⟩, of_decide_eq_true ha⟩
    · rintro ⟨⟨⟨other, hh, rfl, hu⟩, hf⟩, ha⟩
      exact ⟨⟨other, mem_filter.mpr ⟨hh, decide_eq_true ha⟩, rfl, hu⟩, hf⟩
  have hr := swapRemove_perm wait.id (w.registry.holders wait.key).waits
  refine { hi with
    tidy := tidy_occupied hi.tidy
    sessions := fun key' => ?_
    nodup := fun key' => ?_
    waits := fun key' id => ?_
    owners := fun other hh => hi.owners other (mem_filter.mp hh).1
    ids := hi.ids.sublist (filter_sublist.map _)
    fresh := fun other hh => hi.fresh other (mem_filter.mp hh).1
    gone := fun id hg => ?_ }
  · show ((w.registry.unregisterQueryWait wait.key wait.id).holders key').sessions = w.counted track key'
    rw [← hi.sessions, holders]
    split
    · next hs => rw [hs]
    · rfl
  · rw [holders]
    split
    · exact hr.nodup_iff.mpr ((hi.nodup wait.key).erase _)
    · exact hi.nodup key'
  · refine Iff.trans ?_ (hw key' id).symm
    rw [holders]
    split
    · next hs =>
      subst hs
      rw [hr.mem_iff, (hi.nodup wait.key).mem_erase_iff, hi.waits, and_comm]
    · next ho =>
      rw [hi.waits]
      refine ⟨fun hfo => ⟨hfo, ?_⟩, And.left⟩
      rintro rfl
      obtain ⟨⟨wait', hm', hs, hu⟩, -⟩ := hfo
      obtain rfl := Cancels.Inv.eq_of_id hi.ids hm' hm hs
      exact ho hu.symm
  · have hb : id < w.next ∧ ∀ other ∈ w.waits, other.id ≠ id ∨ id = wait.id := by
      rcases hg with hl | hre
      · rcases mem_cons.mp hl with rfl | hl
        · exact ⟨hi.fresh wait hm, fun _ _ => .inr rfl⟩
        · exact ⟨(hi.gone id (.inl hl)).1, fun other hh => .inl ((hi.gone id (.inl hl)).2 other hh)⟩
      · exact ⟨(hi.gone id (.inr hre)).1, fun other hh => .inl ((hi.gone id (.inr hre)).2 other hh)⟩
    refine ⟨hb.1, fun other hh => ?_⟩
    obtain ⟨hh, ha⟩ := mem_filter.mp hh
    rcases hb.2 other hh with hd | rfl
    · exact hd
    · exact of_decide_eq_true ha

variable {id : Nat}

theorem Cancels.Inv.report (hi : w.Inv track) (hl : id ∈ w.leaving) :
    Cancels.Inv track
      { w with leaving := w.leaving.erase id, reports := (id, w.claimed.contains id) :: w.reports } := by
  refine { hi with
    gone := fun id' hg => hi.gone id' ?_
    reported := fun p hm => ?_ }
  · rcases hg with hl' | hr
    · exact .inl (List.mem_of_mem_erase hl')
    · rcases mem_cons.mp hr with rfl | hr
      · exact .inl hl
      · exact .inr hr
  · rcases mem_cons.mp hm with rfl | hm
    · exact contains_iff_mem
    · exact hi.reported p hm

theorem Cancels.Inv.found (hi : w.Inv track) (holders : w.registry.holders key = ⟨1, [id]⟩) :
    ∃ s, w.live.filter (·.2 = key) = [(s, key)] ∧ ⟨id, s, key⟩ ∈ w.waits ∧ id ∉ w.claimed := by
  have hone := hi.sessions key
  have hw := (hi.waits key id).mp (by rw [holders]; exact mem_singleton_self id)
  rw [holders, counted] at hone
  obtain ⟨⟨⟨id, s, key⟩, hm, rfl, rfl⟩, hf⟩ := hw
  refine ⟨s, ?_, hm, hf⟩
  have hc : w.live.countP (·.2 = key) = 1 := by
    split at hone
    · exact hone.symm
    · cases hone
  rw [countP_eq_length_filter] at hc
  obtain ⟨p, ho⟩ := length_eq_one_iff.mp hc
  have how : (s, key) ∈ w.live.filter (·.2 = key) :=
    mem_filter.mpr ⟨hi.owners _ hm, decide_eq_true rfl⟩
  rw [ho, mem_singleton] at how
  rw [ho, how]

theorem Cancels.Inv.cancel (hi : w.Inv track) {registry : CancelKeys K}
    (holders : w.registry.holders key = ⟨1, [id]⟩) (ht : registry.Tidy)
    (ha : ∀ key', registry.holders key' = if key' = key then ⟨1, []⟩ else w.registry.holders key') :
    Cancels.Inv track { w with registry, claimed := id :: w.claimed } := by
  obtain ⟨s, -, hm, hfr⟩ := hi.found holders
  refine { hi with
    tidy := ht
    sessions := fun key' => ?_
    nodup := fun key' => ?_
    waits := fun key' id' => ?_
    known := fun id' hc => ?_
    once := nodup_cons.mpr ⟨hfr, hi.once⟩
    reported := fun p hr => ?_ }
  · show (registry.holders key').sessions = w.counted track key'
    rw [← hi.sessions, ha]
    split
    · next hs => rw [hs, holders]
    · rfl
  · rw [ha]
    split
    · exact nodup_nil
    · exact hi.nodup key'
  · rw [ha]
    split
    · next hs =>
      subst hs
      refine ⟨fun hn => absurd hn not_mem_nil, fun ⟨hw, hu⟩ => ?_⟩
      have hf : id' ∈ (w.registry.holders key').waits :=
        (hi.waits key' id').mpr ⟨hw, fun hc => hu (mem_cons_of_mem _ hc)⟩
      rw [holders, mem_singleton] at hf
      exact absurd (hf ▸ mem_cons_self) hu
    · next ho =>
      rw [hi.waits]
      refine ⟨fun ⟨hw, hu⟩ => ⟨hw, fun hc => ?_⟩,
        fun ⟨hw, hu⟩ => ⟨hw, fun hc => hu (mem_cons_of_mem _ hc)⟩⟩
      rcases mem_cons.mp hc with rfl | hc
      · obtain ⟨wait, hh, hs, hun⟩ := hw
        obtain rfl := Cancels.Inv.eq_of_id hi.ids hh hm hs
        exact ho hun.symm
      · exact hu hc
  · rcases mem_cons.mp hc with rfl | hc
    · exact hi.fresh _ hm
    · exact hi.known id' hc
  · rw [hi.reported p hr, mem_cons]
    refine ⟨.inr, fun hc => hc.resolve_left fun hs => ?_⟩
    exact (hi.gone p.1 (.inr (List.mem_map_of_mem hr))).2 _ hm hs.symm

variable [DecidableEq S]

theorem Cancels.Inv.step {w' : Cancels S K} {e : CancelEvent S K} (hi : w.Inv track)
    (he : w.EndsUnwaited e) (hs : w.step track e = some w') : w'.Inv track := by
  have hfo {s s' : S} {key : K} (hf : w.live.find? (·.1 = s) = some (s', key)) : (s, key) ∈ w.live := by
    have hn := find?_some hf
    obtain rfl : s' = s := of_decide_eq_true hn
    exact mem_of_find?_eq_some hf
  cases e with
  | relayed s key =>
    obtain ⟨hne, hw⟩ := ite_none_left_eq_some.mp hs
    cases hw
    exact hi.relayed key (Bool.eq_false_iff.mpr hne)
  | ended s =>
    simp only [Cancels.step] at hs
    split at hs
    · cases hs
    next hh =>
    cases hs
    exact hi.ended (hfo hh) he
  | register s =>
    simp only [Cancels.step] at hs
    split at hs
    · cases hs
    next hh =>
    cases hs
    exact hi.register (hfo hh)
  | unregister id =>
    simp only [Cancels.step] at hs
    split at hs
    · cases hs
    next wait hh =>
    cases hs
    have hn := find?_some hh
    obtain rfl : wait.id = id := of_decide_eq_true hn
    exact hi.unregister (mem_of_find?_eq_some hh)
  | report id =>
    obtain ⟨hl, hw⟩ := ite_none_right_eq_some.mp hs
    cases hw
    exact hi.report hl
  | cancel key =>
    rcases cancelQueryWait_cases w.registry key with hno | ⟨wait, registry, hc, holders, ht, ha⟩
    · simp only [Cancels.step, hno] at hs
      cases hs
      exact hi
    · simp only [Cancels.step, hc] at hs
      cases hs
      exact hi.cancel holders (ht hi.tidy) ha

/-- Behind every sequence of events in which no session ends within a wait: no wait was
claimed twice; a cancel that succeeds claims the registered wait of the one live session with
the key; a session that has unregistered its wait was told whether it was claimed; and
without a live session and a registered wait the registry is empty. -/
theorem cancelQueryWait_exact {events : List (CancelEvent S K)}
    (hran : run (Cancels.step track) Cancels.start events = some w)
    (hends : Along (Cancels.step track) Cancels.EndsUnwaited Cancels.start events) :
    w.claimed.Nodup ∧
      (∀ key wait registry, w.registry.cancelQueryWait key = (some wait, registry) →
        ∃ s, w.live.filter (·.2 = key) = [(s, key)] ∧ ⟨wait, s, key⟩ ∈ w.waits ∧ wait ∉ w.claimed) ∧
      (∀ wait claimed, (wait, claimed) ∈ w.reports → (claimed = true ↔ wait ∈ w.claimed)) ∧
      (w.live = [] → w.waits = [] → ∀ key, w.registry key = none) := by
  have hinv : w.Inv track :=
    run_invariant_along (fun _ _ _ hinv hends hstep => hinv.step hends hstep) (.start track) hends hran
  refine ⟨hinv.once, fun key wait registry hclaims => ?_, fun wait claimed => hinv.reported (wait, claimed),
    fun hlive hwaits key => ?_⟩
  · rcases cancelQueryWait_cases w.registry key with hnone | ⟨wait', registry', hclaims', holders, -, -⟩
    · rw [hnone] at hclaims
      cases hclaims
    · rw [hclaims'] at hclaims
      obtain ⟨hsame, -⟩ := Prod.mk.inj hclaims
      cases hsame
      exact hinv.found holders
  · cases hentry : w.registry key with
    | none => rfl
    | some h =>
      have holders : w.registry.holders key = h := by rw [CancelKeys.holders, hentry, getD_some]
      have hsessions := hinv.sessions key
      rw [holders, Cancels.counted, hlive] at hsessions
      refine absurd ⟨?_, eq_nil_iff_forall_not_mem.mpr fun id hmem => ?_⟩ (hinv.tidy key h hentry)
      · rw [hsessions]
        split <;> rfl
      · rw [← holders, hinv.waits] at hmem
        obtain ⟨⟨wait, hheld, -⟩, -⟩ := hmem
        rw [hwaits] at hheld
        cases hheld

/-- Two sessions with one key, of which the first ends; the cancel then finds the other. -/
def sharedKey : List (CancelEvent Nat Nat) :=
  [.relayed 1 7, .relayed 2 7, .register 2, .cancel 7, .ended 1, .cancel 7, .unregister 0, .report 0, .ended 2]

theorem cancelQueryWait_exact_shared :
    ∃ w, run (Cancels.step true) Cancels.start sharedKey = some w ∧
      w.reports = [(0, true)] ∧ 0 ∈ w.claimed ∧ ∀ key, w.registry key = none := by
  have hseen : (run (Cancels.step true) Cancels.start sharedKey).map (fun w => (w.reports, w.live, w.waits)) =
      some ([(0, true)], [], []) := by decide
  obtain ⟨w, hran, hparts⟩ := map_eq_some_iff.mp hseen
  obtain ⟨hreports, hrest⟩ := Prod.mk.inj hparts
  obtain ⟨hlive, hwaits⟩ := Prod.mk.inj hrest
  obtain ⟨-, -, htold, hempty⟩ := cancelQueryWait_exact hran (by decide)
  refine ⟨w, hran, hreports, (htold 0 true ?_).mp rfl, hempty hlive hwaits⟩
  rw [hreports]
  exact mem_cons_self

/-- The session of the wait has ended by a panic, and the cancel of the other session's key
claims it. -/
theorem not_cancelQueryWait_exact :
    ∃ w, run (Cancels.step true) Cancels.start
        [.relayed 1 7, .relayed 2 7, .register 1, .ended 1] = some w ∧
      (w.registry.cancelQueryWait 7).1 = some 0 ∧ w.live = [(2, 7)] ∧ w.waits = [⟨0, 1, 7⟩] :=
  ⟨_, rfl, by decide, by decide, by decide⟩

end HeliosProxy.Tenancy
