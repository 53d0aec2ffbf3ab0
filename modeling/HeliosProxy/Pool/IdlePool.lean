import HeliosProxy.Lib.Buckets
import HeliosProxy.Lib.Runs
import HeliosProxy.Text.Chars

/-!
# The idle pool

Connections are parked under the identity they were authenticated with, and one counter
tells how many there are.  A check-in reserves its place in the counter before it enters
the list of its key; everything that takes connections out lowers the counter afterwards.
In between the counter is ahead of the lists, never behind.

A parked connection is named after the check-in that parked it, so that one connection
parked twice is two.  Every call is a party of its own.  An iteration over the map meets
the keys in an order that comes with the call.  The lock of a key is held for one step
only, where the code keeps it until the counter is lowered: the runs here are more than
the code has.
-/

namespace HeliosProxy.Pool

open Text Buckets Lru Parties List Function

/-- The caps of `BackendIdlePool`. -/
structure Caps where
  maxIdlePerKey : Nat
  maxTotalIdle : Nat

def Caps.new (maxIdlePerKey maxTotalIdle : Nat) : Caps := ⟨max maxIdlePerKey 1, max maxTotalIdle 1⟩

/-- `conn` stands for the stream with its node slot and its backend key. -/
structure Parked (ι C : Type) where
  conn : C
  parkedAt : Nat
  parkedBy : ι

/-- `order` is the order in which the iteration meets the keys. -/
inductive Op (C : Type)
  | checkinKeyed (key : Str) (conn : C)
  | checkoutKeyed (key : Str)
  | reapIdle (maxAge : Nat) (order : List Str)
  | evictOneIdleForNode (node : Str) (order : List Str)
  | evictIdleForNode (node : Str) (order : List Str)

inductive Phase (ι C : Type)
  | notCalled
  | reserving (key : Str) (conn : C)
  /-- Over a cap, in front of the `fetch_sub`. -/
  | refusing (key : Str) (conn : C)
  | entering (key : Str) (conn : C)
  | checkedIn (key : Str) (conn : C) (stored : Bool)
  | popping (key : Str)
  /-- Popped, in front of the `fetch_sub`. -/
  | popped (key : Str) (parked : Parked ι C)
  | probing (key : Str) (parked : Parked ι C)
  | checkedOut (key : Str) (result : Option (Parked ι C))
  | reaping (maxAge : Nat) (order : List Str) (reaped : Nat)
  | evictingOne (start : Str) (order : List Str)
  | evictedOne
  | evicting (start : Str) (order : List Str) (closed : Nat)
  | finished

inductive Action (ι C : Type)
  | call (op : Op C)
  | fetchAdd
  /-- The critical section of a check-in. -/
  | enter (now : Nat)
  | pop
  | fetchSub
  | probe (alive : Bool)
  /-- One entry of an iteration; `now` is the clock as each connection's age is read. -/
  | visit (now : ι → Nat)
  | finish

/-- `BackendIdlePool` and the calls on it.  An absent key and an empty list are the same. -/
structure IdlePool (ι C : Type) where
  idle : List (Str × List (Parked ι C))
  totalIdle : Int
  phase : ι → Phase ι C

def Op.start {ι C : Type} : Op C → Phase ι C
  | .checkinKeyed key conn => .reserving key conn
  | .checkoutKeyed key => .popping key
  | .reapIdle maxAge order => .reaping maxAge order 0
  | .evictOneIdleForNode node order => .evictingOne (node ++ ['\x00']) order
  | .evictIdleForNode node order => .evicting (node ++ ['\x00']) order 0

namespace IdlePool

variable {ι C : Type} [DecidableEq ι]

def new : IdlePool ι C := ⟨[], 0, fun _ => .notCalled⟩

def goTo (s : IdlePool ι C) (t : ι) (p : Phase ι C) : IdlePool ι C :=
  { s with phase := update s.phase t p }

def step (caps : Caps) (s : IdlePool ι C) : ι × Action ι C → Option (IdlePool ι C)
  | (t, a) =>
    match s.phase t, a with
    | .notCalled, .call op => some (s.goTo t op.start)
    | .reserving key conn, .fetchAdd =>
      some { s.goTo t (if (caps.maxTotalIdle : Int) ≤ s.totalIdle then .refusing key conn else .entering key conn)
        with totalIdle := s.totalIdle + 1 }
    | .refusing key conn, .fetchSub =>
      some { s.goTo t (.checkedIn key conn false) with totalIdle := s.totalIdle - 1 }
    | .entering key conn, .enter now =>
      if caps.maxIdlePerKey ≤ (bucketOf key s.idle).length then some (s.goTo t (.refusing key conn))
      else some { s.goTo t (.checkedIn key conn true) with
        idle := setBucket key (bucketOf key s.idle ++ [⟨conn, now, t⟩]) s.idle }
    | .popping key, .pop =>
      match (bucketOf key s.idle).getLast? with
      | none => some (s.goTo t (.checkedOut key none))
      | some p => some { s.goTo t (.popped key p) with
          idle := setBucket key (bucketOf key s.idle).dropLast s.idle }
    | .popped key p, .fetchSub => some { s.goTo t (.probing key p) with totalIdle := s.totalIdle - 1 }
    | .probing key p, .probe alive =>
      some (s.goTo t (if alive then .checkedOut key (some p) else .popping key))
    | .reaping maxAge (key :: order) reaped, .visit now =>
      let before := bucketOf key s.idle
      let kept := before.filter fun p => now p.parkedBy - p.parkedAt < maxAge
      some { s.goTo t (.reaping maxAge order (reaped + (before.length - kept.length))) with
        idle := setBucket key kept s.idle }
    | .reaping _ [] reaped, .fetchSub =>
      some { s.goTo t .finished with totalIdle := if 0 < reaped then s.totalIdle - reaped else s.totalIdle }
    | .evictingOne start (key :: order), .visit _ =>
      match bucketOf key s.idle with
      | [] => some (s.goTo t (.evictingOne start order))
      | _ :: rest =>
        if start.isPrefixOf key then some { s.goTo t .evictedOne with idle := setBucket key rest s.idle }
        else some (s.goTo t (.evictingOne start order))
    | .evictingOne _ [], .finish => some (s.goTo t .finished)
    | .evictedOne, .fetchSub => some { s.goTo t .finished with totalIdle := s.totalIdle - 1 }
    | .evicting start (key :: order) closed, .visit _ =>
      if start.isPrefixOf key then
        some { s.goTo t (.evicting start order (closed + (bucketOf key s.idle).length)) with
          idle := setBucket key [] s.idle }
      else some (s.goTo t (.evicting start order closed))
    | .evicting _ [] closed, .fetchSub =>
      some { s.goTo t .finished with totalIdle := s.totalIdle - closed }
    | _, _ => none

def parked (s : IdlePool ι C) : Nat := amount (fun _ => 1) s.idle

end IdlePool

/-! ## What a call holds -/

namespace Phase

variable {ι C : Type}

def pending : Phase ι C → Nat
  | .refusing _ _ | .entering _ _ | .popped _ _ | .evictedOne => 1
  | .reaping _ _ n | .evicting _ _ n => n
  | _ => 0

def reserved : Phase ι C → Nat
  | .entering _ _ => 1
  | _ => 0

def settled : Phase ι C → Nat
  | .checkedIn _ _ true => 1
  | _ => 0

def carries : Phase ι C → Option (Str × Parked ι C)
  | .popped key p | .probing key p | .checkedOut key (some p) => some (key, p)
  | _ => none

def atRest : Phase ι C → Bool
  | .notCalled | .checkedIn _ _ _ | .checkedOut _ _ | .finished => true
  | _ => false

theorem reserved_le_pending (p : Phase ι C) : p.reserved ≤ p.pending := by
  cases p <;> simp [reserved, pending]

theorem pending_of_atRest {p : Phase ι C} (hr : p.atRest) : p.pending = 0 := by
  cases p <;> first | rfl | cases hr

end Phase

section Balance

variable {ι C : Type} [Fintype ι] [DecidableEq ι]

/-- Whether the connection is the one that `t` parked. -/
def Parked.isOf (t : ι) (p : Parked ι C) : Nat := if p.parkedBy = t then 1 else 0

def Phase.carriesOf (t : ι) (p : Phase ι C) : Nat := (p.carries.map fun e => e.2.isOf t).getD 0

/-- The counter is ahead of the lists by what is pending, no cap is exceeded, and a
connection is in one place at most, under the key it was checked in with. -/
structure Balanced (caps : Caps) (idle : List (Str × List (Parked ι C))) (totalIdle : Int)
    (phase : ι → Phase ι C) : Prop where
  keyed : Keyed idle
  counted : totalIdle = amount (fun _ => 1) idle + total Phase.pending phase
  bounded : amount (fun _ => 1) idle + total Phase.reserved phase ≤ caps.maxTotalIdle
  perKey : ∀ key, (bucketOf key idle).length ≤ caps.maxIdlePerKey
  filed : ∀ key, ∀ p ∈ bucketOf key idle, phase p.parkedBy = .checkedIn key p.conn true
  taken : ∀ t key p, (phase t).carries = some (key, p) → phase p.parkedBy = .checkedIn key p.conn true
  once : ∀ t, amount (Parked.isOf t) idle + total (Phase.carriesOf t) phase ≤ (phase t).settled

namespace Balanced

variable {caps : Caps} {idle idle' : List (Str × List (Parked ι C))} {n n' : Int}
  {phase : ι → Phase ι C} {t : ι} {p q : Phase ι C} {key : Str}

omit [Fintype ι] in
theorem settled_update (hu : (phase t).settled = 0) (hsh : p.settled = 0) (u : ι) :
    (update phase t p u).settled = (phase u).settled := by
  by_cases hs : u = t
  · subst hs
    rw [update_self, hsh, hu]
  · rw [update_of_ne hs]

omit [Fintype ι] in
theorem checkedIn_update {u : ι} {conn : C} (hu : (phase t).settled = 0)
    (hs : phase u = .checkedIn key conn true) : update phase t p u = .checkedIn key conn true := by
  have hd : u ≠ t := by
    rintro rfl
    rw [hs] at hu
    cases hu
  rw [update_of_ne hd, hs]

section

variable (h : Balanced caps idle n phase)
include h

theorem move {gone : List (Parked ι C)} (hr : Removes idle idle' gone)
    (hh : phase t = p) (hu : p.settled = 0) (hsh : q.settled = 0)
    (hco : n' + p.pending + gone.length = n + q.pending)
    (hro : q.reserved ≤ p.reserved ∨ q.reserved = 1 ∧ n < caps.maxTotalIdle)
    (ho : ∀ u, q.carriesOf u ≤ p.carriesOf u + (gone.map (Parked.isOf u)).sum)
    (hso : ∀ key x, q.carries = some (key, x) → p.carries = some (key, x) ∨ x ∈ bucketOf key idle) :
    Balanced caps idle' n' (update phase t q) := by
  subst hh
  constructor
  case keyed => exact hr.keyed
  case counted =>
    have ha := hr.amount fun _ => 1
    have hp := total_update Phase.pending phase t q
    have hb := h.counted
    rw [map_const', sum_replicate_nat] at ha
    omega
  case bounded =>
    have ha := hr.amount fun _ => 1
    have hre := total_update Phase.reserved phase t q
    have hb := h.counted
    have hbo := h.bounded
    have hah := total_le_total phase Phase.reserved_le_pending
    omega
  case perKey => exact fun key => le_trans (hr.sublist key).length_le (h.perKey key)
  case filed => exact fun key x hm => checkedIn_update hu (h.filed key x ((hr.sublist key).subset hm))
  case taken =>
    intro u key x hc
    refine checkedIn_update hu ?_
    by_cases hs : u = t
    · subst hs
      rw [update_self] at hc
      exact (hso key x hc).elim (h.taken u key x) (h.filed key x)
    · rw [update_of_ne hs] at hc
      exact h.taken u key x hc
  case once =>
    intro u
    have ha := hr.amount (Parked.isOf u)
    have hca := total_update (Phase.carriesOf u) phase t q
    have hb := h.once u
    have hst := ho u
    rw [settled_update hu hsh]
    omega

theorem stay (hhe : phase t = p) (hu : p.settled = 0)
    (hs : q.settled = 0) (hco : n' + p.pending = n + q.pending)
    (hr : q.reserved ≤ p.reserved ∨ q.reserved = 1 ∧ n < caps.maxTotalIdle)
    (hc : q.carries = none ∨ q.carries = p.carries) :
    Balanced caps idle n' (update phase t q) := by
  refine h.move (removes_nil h.keyed) hhe hu hs (by simpa using hco) hr (fun u => ?_)
    fun key x hh => ?_
  · unfold Phase.carriesOf
    rcases hc with hc | hc <;> simp [hc]
  · rcases hc with hc | hc
    · rw [hc] at hh
      cases hh
    · exact .inl (hc ▸ hh)

theorem lower (hh : phase t = p) (hu : p.settled = 0)
    (hs : q.settled = 0) (hp : q.pending = 0) (hc : q.carries = none ∨ q.carries = p.carries) :
    Balanced caps idle (n - p.pending) (update phase t q) := by
  have hun := Phase.reserved_le_pending q
  exact h.stay hh hu hs (by omega) (.inl (by omega)) hc

theorem close (hhe : phase t = p) (hu : p.settled = 0)
    (hs : q.settled = 0) {kept gone : List (Parked ι C)} (hsu : kept.Sublist (bucketOf key idle))
    (hp : (bucketOf key idle).Perm (kept ++ gone)) (hpe : q.pending = p.pending + gone.length)
    (hun : q.reserved = 0) (hc : q.carries = none) :
    Balanced caps (setBucket key kept idle) n (update phase t q) := by
  refine h.move (removes_setBucket h.keyed hsu hp) hhe hu hs (by omega) (.inl (by omega))
    (fun u => ?_) fun key x hh => ?_
  · rw [Phase.carriesOf, hc]
    exact Nat.zero_le _
  · rw [hc] at hh
    cases hh

theorem push {conn : C} (he : phase t = .entering key conn)
    (hro : (bucketOf key idle).length < caps.maxIdlePerKey) (now : Nat) :
    Balanced caps (setBucket key (bucketOf key idle ++ [⟨conn, now, t⟩]) idle) n
      (update phase t (.checkedIn key conn true)) := by
  have hu : (phase t).settled = 0 := by rw [he]; rfl
  have ha (m : Parked ι C → Nat) :
      amount m (setBucket key (bucketOf key idle ++ [⟨conn, now, t⟩]) idle) = amount m idle + m ⟨conn, now, t⟩ := by
    have hre := amount_setBucket m key (bucketOf key idle ++ [⟨conn, now, t⟩]) h.keyed
    rw [map_append, sum_append, map_singleton, sum_singleton] at hre
    omega
  refine ⟨keyed_setBucket h.keyed, ?_, ?_, fun key' => ?_, fun key' q hm => ?_, fun u key' q hc => ?_,
    fun u => ?_⟩
  · have hp := total_update Phase.pending phase t (.checkedIn key conn true)
    have hb := h.counted
    rw [he] at hp
    simp only [Phase.pending] at hp
    rw [ha]
    omega
  · have hr := total_update Phase.reserved phase t (.checkedIn key conn true)
    have hbo := h.bounded
    rw [he] at hr
    simp only [Phase.reserved] at hr
    rw [ha]
    omega
  · by_cases hs : key' = key
    · subst hs
      rw [bucketOf_setBucket_self, length_append]
      exact hro
    · rw [bucketOf_setBucket_of_ne hs]
      exact h.perKey key'
  · by_cases hs : key' = key
    · subst hs
      rw [bucketOf_setBucket_self] at hm
      rcases mem_append.mp hm with hm | hm
      · exact checkedIn_update hu (h.filed key' q hm)
      · cases mem_singleton.mp hm
        exact update_self ..
    · rw [bucketOf_setBucket_of_ne hs] at hm
      exact checkedIn_update hu (h.filed key' q hm)
  · refine checkedIn_update hu (h.taken u key' q ?_)
    by_cases hs : u = t
    · subst hs
      rw [update_self] at hc
      cases hc
    · rwa [update_of_ne hs] at hc
  · have hca := total_update (Phase.carriesOf u) phase t (.checkedIn key conn true)
    have hb := h.once u
    rw [he, show (Phase.entering key conn : Phase ι C).carriesOf u = 0 from rfl,
      show (Phase.checkedIn key conn true : Phase ι C).carriesOf u = 0 from rfl] at hca
    rw [ha]
    by_cases hs : u = t
    · subst hs
      rw [update_self, show (Parked.isOf u ⟨conn, now, u⟩ : Nat) = 1 from if_pos rfl]
      exact le_trans (by omega) (le_refl 1)
    · rw [update_of_ne hs, show (Parked.isOf u ⟨conn, now, t⟩ : Nat) = 0 from if_neg (Ne.symm hs)]
      omega

end

end Balanced

namespace IdlePool

variable {caps : Caps} {s s' : IdlePool ι C} {t : ι}

def IsBalanced (caps : Caps) (s : IdlePool ι C) : Prop := Balanced caps s.idle s.totalIdle s.phase

theorem isBalanced_new : (new : IdlePool ι C).IsBalanced caps where
  keyed := nodup_nil
  counted := by
    rw [show total Phase.pending (new : IdlePool ι C).phase = 0 from total_eq_zero fun _ => rfl]
    rfl
  bounded := by
    rw [show total Phase.reserved (new : IdlePool ι C).phase = 0 from total_eq_zero fun _ => rfl]
    exact Nat.zero_le _
  perKey _ := Nat.zero_le _
  filed := by rintro _ _ ⟨⟩
  taken := by rintro _ _ _ ⟨⟩
  once u := by
    rw [show total (Phase.carriesOf u) (new : IdlePool ι C).phase = 0 from total_eq_zero fun _ => rfl]
    rfl

theorem IsBalanced.step (h : s.IsBalanced caps) {a : Action ι C} (hs : step caps s (t, a) = some s') :
    s'.IsBalanced caps := by
  simp only [IdlePool.step] at hs
  split at hs
  case h_1 op hh =>
    cases hs
    cases op <;> exact Balanced.stay h hh rfl rfl rfl (.inl (Nat.zero_le _)) (.inl rfl)
  case h_2 key conn hh =>
    cases hs
    by_cases hf : (caps.maxTotalIdle : Int) ≤ s.totalIdle
    · simp only [hf]
      exact Balanced.stay h hh rfl rfl (Int.add_zero _) (.inl (Nat.zero_le _)) (.inl rfl)
    · simp only [hf]
      exact Balanced.stay h hh rfl rfl (Int.add_zero _) (.inr ⟨rfl, Int.not_le.mp hf⟩) (.inl rfl)
  case h_3 key conn hh =>
    cases hs
    exact Balanced.lower h hh rfl rfl rfl (.inl rfl)
  case h_4 key conn now hh =>
    split at hs
    · cases hs
      exact Balanced.stay h hh rfl rfl rfl (.inl (Nat.zero_le _)) (.inl rfl)
    · next hr =>
      cases hs
      exact Balanced.push h hh (Nat.not_le.mp hr) now
  case h_5 key hh =>
    split at hs
    · cases hs
      exact Balanced.stay h hh rfl rfl rfl (.inl (Nat.zero_le _)) (.inl rfl)
    · next p hl =>
      cases hs
      have hp : (bucketOf key s.idle).Perm ((bucketOf key s.idle).dropLast ++ [p]) :=
        .of_eq (dropLast_append_getLast? p hl).symm
      have hpo := removes_setBucket (Balanced.keyed h) (dropLast_sublist _) hp
      refine Balanced.move h hpo hh rfl rfl ?_ (.inl (Nat.zero_le _)) (fun u => ?_) ?_
      · show s.totalIdle + 0 + 1 = s.totalIdle + 1
        rw [Int.add_zero]
      · simp [Phase.carriesOf, Phase.carries]
      · rintro key' q ⟨⟩
        exact .inr (mem_of_getLast? hl)
  case h_6 key p hh =>
    cases hs
    exact Balanced.lower h hh rfl rfl rfl (.inr rfl)
  case h_7 key p alive hh =>
    cases hs
    cases alive with
    | true => exact Balanced.stay h hh rfl rfl rfl (.inl (Nat.zero_le _)) (.inr rfl)
    | false => exact Balanced.stay h hh rfl rfl rfl (.inl (Nat.zero_le _)) (.inl rfl)
  case h_8 maxAge key order reaped now hh =>
    cases hs
    set fresh : Parked ι C → Bool := fun p => now p.parkedBy - p.parkedAt < maxAge
    have hp := (filter_append_perm fresh (bucketOf key s.idle)).symm
    have hle := hp.length_eq
    rw [length_append] at hle
    refine Balanced.close h hh rfl rfl filter_sublist hp ?_ rfl rfl
    simp only [Phase.pending]
    omega
  case h_9 maxAge reaped hh =>
    cases hs
    have hsu : (if 0 < reaped then s.totalIdle - reaped else s.totalIdle) = s.totalIdle - reaped := by
      split <;> omega
    rw [hsu]
    exact Balanced.lower h hh rfl rfl rfl (.inl rfl)
  case h_10 start key order now hh =>
    split at hs
    · cases hs
      exact Balanced.stay h hh rfl rfl rfl (.inl (Nat.zero_le _)) (.inl rfl)
    · next first rest hb =>
      split at hs
      · cases hs
        have hp : (bucketOf key s.idle).Perm (rest ++ [first]) := by
          rw [hb]
          exact (perm_append_singleton first rest).symm
        refine Balanced.close h hh rfl rfl ?_ hp rfl rfl rfl
        rw [hb]
        exact sublist_cons_self first rest
      · cases hs
        exact Balanced.stay h hh rfl rfl rfl (.inl (Nat.zero_le _)) (.inl rfl)
  case h_11 start hh =>
    cases hs
    exact Balanced.stay h hh rfl rfl rfl (.inl (Nat.zero_le _)) (.inl rfl)
  case h_12 hh =>
    cases hs
    exact Balanced.lower h hh rfl rfl rfl (.inl rfl)
  case h_13 start key order closed now hh =>
    split at hs
    · cases hs
      exact Balanced.close h hh rfl rfl (nil_sublist _) (.refl _) rfl rfl rfl
    · cases hs
      exact Balanced.stay h hh rfl rfl rfl (.inl (Nat.zero_le _)) (.inl rfl)
  case h_14 start closed hh =>
    cases hs
    exact Balanced.lower h hh rfl rfl rfl (.inl rfl)
  case h_15 => cases hs

theorem IsBalanced.alone (h : s.IsBalanced caps) {key : Str} {p : Parked ι C}
    (ho : (s.phase t).carries = some (key, p)) :
    (∀ u key' p', (s.phase u).carries = some (key', p') → p'.parkedBy = p.parkedBy → u = t) ∧
      ∀ key', ∀ p' ∈ bucketOf key' s.idle, p'.parkedBy ≠ p.parkedBy := by
  have hst := Balanced.taken h t key p ho
  have hon := Balanced.once h p.parkedBy
  rw [hst, show (Phase.checkedIn key p.conn true : Phase ι C).settled = 1 from rfl] at hon
  have hmi : (s.phase t).carriesOf p.parkedBy = 1 := by
    simp [Phase.carriesOf, ho, Parked.isOf]
  refine ⟨fun u key' p' ho' hs => ?_, fun key' p' hm hs => ?_⟩
  · have hot : (s.phase u).carriesOf p.parkedBy = 1 := by
      simp [Phase.carriesOf, ho', Parked.isOf, hs]
    by_contra hd
    have hb := add_held_le_total (Phase.carriesOf p.parkedBy) s.phase hd
    omega
  · have hl : p'.isOf p.parkedBy = 1 := if_pos hs
    have hli := le_amount (m := Parked.isOf p.parkedBy) (Balanced.keyed h) hm
    have hh := held_le_total (Phase.carriesOf p.parkedBy) s.phase t
    omega

def AtRest (s : IdlePool ι C) : Prop := ∀ t, (s.phase t).atRest = true

/-- The pool is bounded and conserves connections: the counter is never below the number
parked, and what a check-out gets was parked under its key and is nowhere else. -/
theorem idlePool_conserves (maxIdlePerKey maxTotalIdle : Nat) (as : List (ι × Action ι C)) (s : IdlePool ι C)
    (hran : Runs.run (IdlePool.step (Caps.new maxIdlePerKey maxTotalIdle)) new as = some s) :
    s.parked ≤ max maxTotalIdle 1 ∧
    (∀ key, (bucketOf key s.idle).length ≤ max maxIdlePerKey 1) ∧
    (s.parked : Int) ≤ s.totalIdle ∧
    (s.AtRest → s.totalIdle = s.parked) ∧
    ∀ t key p, s.phase t = .checkedOut key (some p) →
      s.phase p.parkedBy = .checkedIn key p.conn true ∧
      (∀ u key' p', s.phase u = .checkedOut key' (some p') → p'.parkedBy = p.parkedBy → u = t) ∧
      ∀ key', ∀ p' ∈ bucketOf key' s.idle, p'.parkedBy ≠ p.parkedBy := by
  have hbalanced : s.IsBalanced (Caps.new maxIdlePerKey maxTotalIdle) :=
    Runs.run_invariant (fun _ _ _ h hstepped => IsBalanced.step h hstepped) isBalanced_new hran
  have hcounted := Balanced.counted hbalanced
  refine ⟨?_, Balanced.perKey hbalanced, ?_, fun hrest => ?_, fun t key p hout => ?_⟩
  · exact Nat.le_trans (Nat.le_add_right _ _) (Balanced.bounded hbalanced)
  · unfold parked
    omega
  · rw [total_eq_zero fun t => Phase.pending_of_atRest (hrest t)] at hcounted
    simpa [parked] using hcounted
  · have hcarried : (s.phase t).carries = some (key, p) := by rw [hout]; rfl
    obtain ⟨halone, hunparked⟩ := hbalanced.alone hcarried
    refine ⟨Balanced.taken hbalanced t key p hcarried, fun u key' p' hout' => halone u key' p' ?_, hunparked⟩
    rw [hout']
    rfl

end IdlePool

end Balance

namespace IdlePool

def parkAndTake : List (Bool × Action Bool Nat) :=
  [(false, .call (.checkinKeyed "n" 7)), (false, .fetchAdd), (false, .enter 0),
    (true, .call (.checkoutKeyed "n")), (true, .pop), (true, .fetchSub), (true, .probe true)]

theorem idlePool_conserves_parkAndTake : ∃ s : IdlePool Bool Nat,
    Runs.run (step (Caps.new 1 1)) new parkAndTake = some s ∧
      s.phase true = .checkedOut "n" (some ⟨7, 0, 0⟩) ∧ s.phase false = .checkedIn "n" 7 true := by
  refine ⟨_, rfl, rfl, ?_⟩
  exact ((idlePool_conserves 1 1 parkAndTake _ rfl).2.2.2.2 true "n" ⟨7, 0, 0⟩ rfl).1

end IdlePool

end HeliosProxy.Pool
