import HeliosProxy.Topology.RoutingSnapshot

/-!
# Epochs and leaders

A change of primary increments the epoch first and writes the primary afterwards, and
a snapshot reads the primary first and the epoch afterwards.  Here the tracker's
changes and any number of running `take_routing_snapshot` calls take their steps in
any order.  A call that names a leader right before the increment, or before the
write, publishes the old leader under the new epoch; where no increment falls between
the two readings, and no leader is read before it is written, an epoch names one
leader.
-/

namespace HeliosProxy.Topology

open Text List Option Function

/-! ## The steps of a change -/

namespace PrimaryTracker

/-- The node and address `detect_primary_from_provider` changes to. -/
def detects (t : PrimaryTracker) (provider : TopologyProvider) : Option (Str × Str) :=
  provider.getPrimary.bind fun primary =>
    if t.getPrimaryAddress = some primary.clientAddr then none
    else some (primary.nodeId, primary.clientAddr)

/-- The node and address `handle_primary_changed` changes to. -/
def changesTo (t : PrimaryTracker) (provider : TopologyProvider) (new : Str) :
    Option (Str × Str) :=
  if t.currentPrimary.map (·.nodeId) = some new then none
  else some (new, ((provider.getNode new).map (·.clientAddr)).getD (new ++ ":5432"))

end PrimaryTracker

/-- A `take_routing_snapshot` with what it has read so far, up to its publication. -/
inductive Call (F : Type)
  | began (now : Instant) (facts : List (NodeFacts F))
  | validity (now : Instant) (facts : List (NodeFacts F)) (valid : Bool)
  | leader (now : Instant) (facts : List (NodeFacts F)) (leader : Option Str)
  | lease (now : Instant) (facts : List (NodeFacts F)) (leader : Option Str)
      (lease : Option Duration)
  | built (snapshot : RoutingSnapshot F)
  | published

def Call.holds {F : Type} : Call F → Option Str
  | .leader _ _ l | .lease _ _ l _ => l
  | _ => none

def Call.confirmed {F : Type} : Call F → Bool
  | .validity _ _ valid => valid
  | _ => false

/-- The tracker, the change it has incremented the epoch for and not written yet, the
calls, the current snapshot and every one so far.  The lock of `publish_with` admits
one call at a time; here they may also overlap. -/
structure Routing (F : Type) where
  authoritative : Bool
  tracker : PrimaryTracker
  pending : Option PrimaryInfo
  calls : List (Call F)
  current : RoutingSnapshot F
  history : List (RoutingSnapshot F)

inductive RoutingStep (F : Type)
  | refresh (provider : TopologyProvider) (now : Instant)
  | detect (provider : TopologyProvider)
  | changed (provider : TopologyProvider) (new : Str)
  | write
  | clear
  | begin (now : Instant) (facts : List (NodeFacts F))
  | readValidity (i : Nat) (now : Instant)
  | readLeader (i : Nat)
  | readLease (i : Nat) (now : Instant)
  | readEpoch (i : Nat)
  | publish (i : Nat)

namespace Routing

variable {F : Type}

def init (authoritative hasProvider : Bool) (leaseTimeout : Duration) (now : Instant) : Routing F where
  authoritative := authoritative
  tracker := ⟨hasProvider, none, 0, leaseTimeout, none⟩
  pending := none
  calls := []
  current := .empty authoritative now
  history := [.empty authoritative now]

/-- `fetch_add` on the 64-bit epoch. -/
def increment (s : Routing F) : Option (Str × Str) → Routing F
  | none => s
  | some (nodeId, address) =>
    let epoch := (s.tracker.epoch + 1) % 2 ^ 64
    { s with tracker := { s.tracker with epoch }, pending := some ⟨nodeId, address, epoch⟩ }

def setCall (s : Routing F) (i : Nat) (c : Call F) : Routing F := { s with calls := s.calls.set i c }

/-- The tracker makes one change after another; the calls take their readings in
between. -/
def step (s : Routing F) : RoutingStep F → Option (Routing F)
  | .refresh provider now =>
    if s.pending.isNone then some { s with tracker := s.tracker.refresh provider now } else none
  | .detect provider =>
    if s.pending.isNone then some (s.increment (s.tracker.detects provider)) else none
  | .changed provider new =>
    if s.pending.isNone then some (s.increment (s.tracker.changesTo provider new)) else none
  | .write =>
    s.pending.map fun info =>
      { s with tracker := { s.tracker with currentPrimary := some info }, pending := none }
  | .clear => if s.pending.isNone then some { s with tracker := s.tracker.clearPrimary } else none
  | .begin now facts =>
    let c := if s.authoritative then .began now facts else .built (.build facts .static now)
    some { s with calls := s.calls ++ [c] }
  | .readValidity i at' =>
    match s.calls[i]? with
    | some (.began now facts) =>
      some (s.setCall i (.validity now facts (s.tracker.authorityValid at')))
    | _ => none
  | .readLeader i =>
    match s.calls[i]? with
    | some (.validity now facts valid) =>
      some (s.setCall i (.leader now facts (if valid then s.tracker.getPrimaryAddress else none)))
    | _ => none
  | .readLease i at' =>
    match s.calls[i]? with
    | some (.leader now facts leader) =>
      let lease := if s.tracker.hasProvider then s.tracker.leaseRemaining at' else none
      some (s.setCall i (.lease now facts leader lease))
    | _ => none
  | .readEpoch i =>
    match s.calls[i]? with
    | some (.lease now facts leader lease) =>
      some (s.setCall i (.built (.build facts (.provider leader s.tracker.epoch lease) now)))
    | _ => none
  | .publish i =>
    match s.calls[i]? with
    | some (.built next) =>
      let next := s.current.publishWith next
      some { s.setCall i .published with current := next, history := next :: s.history }
    | _ => none

def OneLeader (s : Routing F) : Prop :=
  ∀ a ∈ s.history, ∀ b ∈ s.history, a.epoch = b.epoch →
    ∀ x ∈ a.leader, ∀ y ∈ b.leader, x = y

/-- The epoch is incremented while no call holds a leader, and a leader is not read
while a change waits to be written. -/
def Quiet (s : Routing F) : RoutingStep F → Prop
  | .detect provider =>
    (s.tracker.detects provider).isSome →
      (∀ c ∈ s.calls, c.holds = none) ∧ s.tracker.epoch + 1 < 2 ^ 64
  | .changed provider new =>
    (s.tracker.changesTo provider new).isSome →
      (∀ c ∈ s.calls, c.holds = none) ∧ s.tracker.epoch + 1 < 2 ^ 64
  | .readLeader i => (s.calls[i]?).any Call.confirmed = true → s.pending = none
  | _ => True

instance (s : Routing F) (a : RoutingStep F) : Decidable (s.Quiet a) := by
  cases a <;> unfold Routing.Quiet <;> infer_instance

/-! ## Under a provider -/

/-- The snapshot is of an epoch up to `epoch`, and names the leader of its own. -/
def Fits (named : Nat → Str) (epoch : Nat) (r : RoutingSnapshot F) : Prop :=
  r.epoch ≤ epoch ∧ ∀ x ∈ r.leader, named r.epoch = x

/-- What `named` says of the epochs so far. -/
structure Named (named : Nat → Str) (s : Routing F) : Prop where
  authoritative : s.authoritative = true
  history : ∀ r ∈ s.history, Fits named s.tracker.epoch r
  current : ∀ info ∈ s.tracker.currentPrimary, info.epoch ≤ s.tracker.epoch ∧
    named info.epoch = info.address ∧ (s.pending = none → info.epoch = s.tracker.epoch)
  pending : ∀ info ∈ s.pending, info.epoch = s.tracker.epoch ∧ named info.epoch = info.address
  held : ∀ c ∈ s.calls, ∀ x ∈ c.holds, s.pending = none ∧ named s.tracker.epoch = x
  built : ∀ r, .built r ∈ s.calls → r.authoritative = true ∧ Fits named s.tracker.epoch r

variable {named : Nat → Str} {s s' : Routing F}

theorem Fits.update {epoch : Nat} {r : RoutingSnapshot F} (h : Fits named epoch r) (address : Str) :
    Fits (update named (epoch + 1) address) (epoch + 1) r := by
  refine ⟨Nat.le_succ_of_le h.1, fun x hx => ?_⟩
  rw [update_of_ne (ne_of_lt (Nat.lt_succ_of_le h.1))]
  exact h.2 x hx

theorem fits_build {facts : List (NodeFacts F)} {leader : Option Str} {epoch : Nat}
    (h : ∀ x ∈ leader, named epoch = x) (lease : Option Duration) (now : Instant) :
    Fits named epoch (.build facts (.provider leader epoch lease) now) :=
  ⟨le_refl _, fun x hx => h x (mem_filter_iff.mp hx).1⟩

namespace Named

variable (h : Named named s)
include h

theorem setCall {i : Nat} {c : Call F}
    (hheld : ∀ x ∈ c.holds, s.pending = none ∧ named s.tracker.epoch = x)
    (hbuilt : ∀ r, c = .built r → r.authoritative ∧ Fits named s.tracker.epoch r) :
    Named named (s.setCall i c) where
  authoritative := h.authoritative
  history := h.history
  current := h.current
  pending := h.pending
  held c' hc' := by
    rcases mem_or_eq_of_mem_set hc' with hh | rfl
    · exact h.held c' hh
    · exact hheld
  built r hr := by
    rcases mem_or_eq_of_mem_set hr with hh | hnew
    · exact h.built r hh
    · exact hbuilt r hnew.symm

theorem increment {nodeId address : Str}
    (hheld : ∀ c ∈ s.calls, c.holds = none) (hepoch : s.tracker.epoch + 1 < 2 ^ 64) :
    Named (update named (s.tracker.epoch + 1) address)
      (s.increment (some (nodeId, address))) := by
  have hnext : (s.increment (some (nodeId, address))).tracker.epoch = s.tracker.epoch + 1 :=
    Nat.mod_eq_of_lt hepoch
  constructor
  case authoritative => exact h.authoritative
  case history =>
    intro r hr
    rw [hnext]
    exact (h.history r hr).update address
  case current =>
    intro info hinfo
    obtain ⟨hle, hnamed, -⟩ := h.current info hinfo
    rw [hnext, update_of_ne (ne_of_lt (Nat.lt_succ_of_le hle))]
    exact ⟨Nat.le_succ_of_le hle, hnamed, nofun⟩
  case pending =>
    intro info hinfo
    cases hinfo
    refine ⟨rfl, ?_⟩
    rw [Nat.mod_eq_of_lt hepoch, update_self]
  case held =>
    intro c hc x hx
    rw [hheld c hc] at hx
    cases hx
  case built =>
    intro r hr
    rw [hnext]
    exact ⟨(h.built r hr).1, (h.built r hr).2.update address⟩

theorem write {info : PrimaryInfo} (hinfo : s.pending = some info) :
    Named named
      { s with tracker := { s.tracker with currentPrimary := some info }, pending := none } where
  authoritative := h.authoritative
  history := h.history
  current info' hinfo' := by
    cases hinfo'
    obtain ⟨hepoch, hnamed⟩ := h.pending info hinfo
    exact ⟨le_of_eq hepoch, hnamed, fun _ => hepoch⟩
  pending _ hnone := by cases hnone
  held c hc x hx := by
    have hnone := (h.held c hc x hx).1
    rw [hinfo] at hnone
    cases hnone
  built := h.built

theorem publish {i : Nat} {next : RoutingSnapshot F} (hnext : s.calls[i]? = some (.built next)) :
    Named named
      { s.setCall i .published with
        current := s.current.publishWith next
        history := s.current.publishWith next :: s.history } := by
  obtain ⟨hauth, hfits⟩ := h.built next (mem_of_getElem? hnext)
  have hpublish : s.current.publishWith next = next := if_pos hauth
  have hset : Named named (s.setCall i .published) := h.setCall nofun nofun
  rw [hpublish]
  refine ⟨hset.authoritative, fun r hr => ?_, hset.current, hset.pending, hset.held, hset.built⟩
  rcases mem_cons.mp hr with rfl | hr
  · exact hfits
  · exact hset.history r hr

theorem readLeader {i : Nat} {now : Instant} {facts : List (NodeFacts F)} {valid : Bool}
    (hquiet : valid → s.pending = none) :
    Named named (s.setCall i
      (.leader now facts (if valid then s.tracker.getPrimaryAddress else none))) := by
  refine h.setCall (fun x hx => ?_) nofun
  cases valid with
  | false => cases hx
  | true =>
    obtain ⟨info, hinfo, rfl⟩ := map_eq_some_iff.mp hx
    obtain ⟨-, hnamed, hepoch⟩ := h.current info hinfo
    rw [← hepoch (hquiet rfl)]
    exact ⟨hquiet rfl, hnamed⟩

theorem change {target : Option (Str × Str)}
    (hquiet : target.isSome → (∀ c ∈ s.calls, c.holds = none) ∧ s.tracker.epoch + 1 < 2 ^ 64) :
    ∃ named', Named named' (s.increment target) := by
  cases target with
  | none => exact ⟨named, h⟩
  | some target => exact ⟨_, h.increment (hquiet rfl).1 (hquiet rfl).2⟩

theorem step {a : RoutingStep F} (hquiet : s.Quiet a) (hstep : s.step a = some s') :
    ∃ named', Named named' s' := by
  cases a with
  | refresh provider now =>
    obtain ⟨-, ⟨⟩⟩ := ite_none_right_eq_some.mp hstep
    exact ⟨named, h.authoritative, h.history, h.current, h.pending, h.held, h.built⟩
  | detect provider | changed provider new =>
    obtain ⟨-, ⟨⟩⟩ := ite_none_right_eq_some.mp hstep
    exact h.change hquiet
  | write =>
    obtain ⟨info, hinfo, rfl⟩ := map_eq_some_iff.mp hstep
    exact ⟨named, h.write hinfo⟩
  | clear =>
    obtain ⟨-, ⟨⟩⟩ := ite_none_right_eq_some.mp hstep
    exact ⟨named, h.authoritative, h.history, nofun, h.pending, h.held, h.built⟩
  | begin now facts =>
    cases hstep
    refine ⟨named, h.authoritative, h.history, h.current, h.pending, fun c hc => ?_, fun r hr => ?_⟩
    · rcases mem_append.mp hc with hh | hnew
      · exact h.held c hh
      · rw [mem_singleton.mp hnew, h.authoritative]
        nofun
    · rcases mem_append.mp hr with hh | hnew
      · exact h.built r hh
      · rw [h.authoritative] at hnew
        cases mem_singleton.mp hnew
  | readValidity i now' =>
    simp only [Routing.step] at hstep
    split at hstep <;> cases hstep
    exact ⟨named, h.setCall nofun nofun⟩
  | readLeader i =>
    simp only [Routing.step] at hstep
    split at hstep <;> cases hstep
    next now facts valid hcall =>
      refine ⟨named, h.readLeader fun hvalid => hquiet ?_⟩
      rw [hcall]
      exact hvalid
  | readLease i now' =>
    simp only [Routing.step] at hstep
    split at hstep <;> cases hstep
    next hcall =>
      have hheld := h.held _ (mem_of_getElem? hcall)
      exact ⟨named, h.setCall hheld nofun⟩
  | readEpoch i =>
    simp only [Routing.step] at hstep
    split at hstep <;> cases hstep
    next now facts leader lease hcall =>
      refine ⟨named, h.setCall nofun fun r hr => ?_⟩
      cases hr
      have hleader := h.held _ (mem_of_getElem? hcall)
      exact ⟨rfl, fits_build (fun x hx => (hleader x hx).2) lease now⟩
  | publish i =>
    simp only [Routing.step] at hstep
    split at hstep <;> cases hstep
    next hcall => exact ⟨named, h.publish hcall⟩

theorem oneLeader : s.OneLeader := by
  intro a ha b hb hepoch x hx y hy
  rw [← (h.history a ha).2 x hx, ← (h.history b hb).2 y hy, hepoch]

end Named

/-! ## Without a provider -/

structure Counted (s : Routing F) : Prop where
  static : s.authoritative = false
  calls : ∀ c ∈ s.calls, c = .published ∨ ∃ r, c = .built r ∧ r.authoritative = false
  latest : s.current ∈ s.history
  older : ∀ r ∈ s.history, r.epoch ≤ s.current.epoch
  leader : ∀ a ∈ s.history, ∀ b ∈ s.history, a.epoch = b.epoch → a.leader = b.leader

namespace Counted

variable (h : Counted s)
include h

theorem not_reading {i : Nat} {c : Call F} (hcall : s.calls[i]? = some c) :
    c = .published ∨ ∃ r, c = .built r ∧ r.authoritative = false :=
  h.calls c (mem_of_getElem? hcall)

theorem publish {i : Nat} {next : RoutingSnapshot F} (hnext : s.calls[i]? = some (.built next)) :
    Counted
      { s.setCall i .published with
        current := s.current.publishWith next
        history := s.current.publishWith next :: s.history } := by
  have hstatic : next.authoritative = false := by
    rcases h.not_reading hnext with hpub | ⟨r, ⟨⟩, hr⟩
    · cases hpub
    · exact hr
  have hleader : (s.current.publishWith next).leader = next.leader := by
    simp [RoutingSnapshot.publishWith, hstatic]
  have hepoch : (s.current.publishWith next).epoch =
      s.current.epoch + if s.current.leader ≠ next.leader then 1 else 0 := by
    simp [RoutingSnapshot.publishWith, hstatic]
  have hsame : ∀ r ∈ s.history, (s.current.publishWith next).epoch = r.epoch →
      (s.current.publishWith next).leader = r.leader := by
    intro r hr heq
    have hle := h.older r hr
    by_cases hmoved : s.current.leader = next.leader
    · rw [hepoch, if_neg (not_not_intro hmoved)] at heq
      rw [hleader, ← hmoved]
      exact h.leader s.current h.latest r hr heq
    · rw [hepoch, if_pos hmoved] at heq
      omega
  constructor
  case static => exact h.static
  case calls =>
    intro c hc
    rcases mem_or_eq_of_mem_set hc with hh | rfl
    · exact h.calls c hh
    · exact .inl rfl
  case latest => exact mem_cons_self
  case older =>
    intro r hr
    rcases mem_cons.mp hr with rfl | hr
    · exact Nat.le_refl _
    · refine Nat.le_trans (h.older r hr) ?_
      rw [hepoch]
      exact Nat.le_add_right _ _
  case leader =>
    intro a ha b hb heq
    rcases mem_cons.mp ha with rfl | ha <;> rcases mem_cons.mp hb with rfl | hb
    · rfl
    · exact hsame b hb heq
    · exact (hsame a ha heq.symm).symm
    · exact h.leader a ha b hb heq

theorem step {a : RoutingStep F} (hstep : s.step a = some s') : Counted s' := by
  cases a with
  | refresh | clear =>
    obtain ⟨-, ⟨⟩⟩ := ite_none_right_eq_some.mp hstep
    exact ⟨h.static, h.calls, h.latest, h.older, h.leader⟩
  | detect | changed =>
    obtain ⟨-, ⟨⟩⟩ := ite_none_right_eq_some.mp hstep
    unfold increment
    split
    · exact h
    · exact ⟨h.static, h.calls, h.latest, h.older, h.leader⟩
  | write =>
    obtain ⟨info, hinfo, rfl⟩ := map_eq_some_iff.mp hstep
    exact ⟨h.static, h.calls, h.latest, h.older, h.leader⟩
  | begin now facts =>
    cases hstep
    refine ⟨h.static, fun c hc => ?_, h.latest, h.older, h.leader⟩
    rcases mem_append.mp hc with hh | hnew
    · exact h.calls c hh
    · rw [mem_singleton.mp hnew, h.static]
      exact .inr ⟨_, rfl, rfl⟩
  | readValidity | readLeader | readLease | readEpoch =>
    simp only [Routing.step] at hstep
    split at hstep <;> cases hstep
    next hcall =>
      rcases h.not_reading hcall with hpub | ⟨r, hr, -⟩
      · cases hpub
      · cases hr
  | publish i =>
    simp only [Routing.step] at hstep
    split at hstep <;> cases hstep
    next hcall => exact h.publish hcall

theorem oneLeader : s.OneLeader := by
  intro a ha b hb hepoch x hx y hy
  have hxy := h.leader a ha b hb hepoch
  rw [hx, hy] at hxy
  exact Option.some.inj hxy

end Counted

end Routing

/-- A published epoch names one leader, in every run whose steps are quiet. -/
theorem epoch_names_one_leader {F : Type} (authoritative hasProvider : Bool) (leaseTimeout : Duration)
    (now : Instant) (steps : List (RoutingStep F)) {s : Routing F}
    (hq : Runs.Along Routing.step Routing.Quiet (.init authoritative hasProvider leaseTimeout now) steps)
    (hran : Runs.run Routing.step (.init authoritative hasProvider leaseTimeout now) steps = some s) :
    s.OneLeader := by
  cases authoritative with
  | true =>
    have hstep : ∀ (s : Routing F) a s', (∃ named, Routing.Named named s) → s.Quiet a →
        s.step a = some s' → ∃ named, Routing.Named named s' := by
      rintro s a s' ⟨named, h⟩ hquiet hstep
      exact h.step hquiet hstep
    have hinit : Routing.Named (F := F) (fun _ => []) (.init true hasProvider leaseTimeout now) := by
      refine ⟨rfl, fun r hr => ?_, nofun, nofun, nofun, nofun⟩
      rw [mem_singleton.mp hr]
      exact ⟨le_refl 0, nofun⟩
    obtain ⟨named, h⟩ := Runs.run_invariant_along hstep ⟨_, hinit⟩ hq hran
    exact h.oneLeader
  | false =>
    refine (Runs.run_invariant (P := Routing.Counted) (fun _ _ _ h hstep => h.step hstep) ?_ hran).oneLeader
    exact ⟨rfl, nofun, mem_singleton_self _, by simp [Routing.init], by simp [Routing.init]⟩

/-- A provider whose primary is the node `n`. -/
def providerOf (n : Str) : TopologyProvider where
  getPrimary := some ⟨n, n ++ ":5432"⟩
  authorityConflict := false
  confirmedAt := none
  getNode _ := none

def factsOfTwo : List (NodeFacts Nat) :=
  [⟨"a:5432", .primary, true, true, 1, 0, none⟩,
    ⟨"b:5432", .standby, true, true, 1, 0, none⟩]

def firstOfCall (i : Nat) : List (RoutingStep Nat) :=
  [.begin 2 factsOfTwo, .readValidity i 2, .readLeader i]

def restOfCall (i : Nat) : List (RoutingStep Nat) := [.readLease i 2, .readEpoch i, .publish i]

def followA : List (RoutingStep Nat) :=
  [.refresh (providerOf "a") 1, .detect (providerOf "a"), .write]

/-- A call under the leader `a`, then the change to `b`, then a call again. -/
def oneByOne : List (RoutingStep Nat) :=
  followA ++ firstOfCall 0 ++ restOfCall 0 ++
    [.changed (providerOf "b") "b", .write] ++ firstOfCall 1 ++ restOfCall 1

def overlapping : List (RoutingStep Nat) :=
  followA ++ firstOfCall 0 ++ [.changed (providerOf "b") "b"] ++ restOfCall 0 ++
    [.write] ++ firstOfCall 1 ++ restOfCall 1

theorem epoch_names_one_leader_oneByOne :
    ∃ s, Runs.run Routing.step (.init true true 10 0) oneByOne = some s ∧
      s.history.map (fun r => (r.epoch, r.leader)) =
        [(2, some "b:5432".toList), (1, some "a:5432".toList), (0, none)] ∧
      s.OneLeader :=
  ⟨_, rfl, by decide, epoch_names_one_leader true true 10 0 oneByOne (by decide) rfl⟩

theorem not_epoch_names_one_leader :
    ∃ s, Runs.run Routing.step (.init true true 10 0) overlapping = some s ∧
      s.history.map (fun r => (r.epoch, r.leader)) =
        [(2, some "b:5432".toList), (2, some "a:5432".toList), (0, none)] ∧
      ¬ s.OneLeader := by
  refine ⟨_, rfl, by decide, fun hone => ?_⟩
  have hab := hone _ (.head _) _ (.tail _ (.head _)) rfl "b:5432" rfl "a:5432" rfl
  revert hab
  decide

end HeliosProxy.Topology
