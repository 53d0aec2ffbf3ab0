import HeliosProxy.Topology.PrimaryTracker

/-!
# The routing snapshot

`publish_routing` builds a snapshot from the configuration, the health map and the
tracker, and `snapshot_leader` reads the write leader from it.  The tracker is asked
twice about its lease, once for whether there is a leader and once for how long, and
each question reads the clock.
-/

namespace HeliosProxy.Topology

open Text List Option

/-! ## Building a snapshot -/

inductive NodeRole
  | primary
  | standby
  | readReplica
deriving DecidableEq

/-- One configured node as the builder sees it, with latencies in `F`. -/
structure NodeFacts (F : Type) where
  address : Str
  role : NodeRole
  enabled : Bool
  healthy : Bool
  weight : Nat
  latencyMs : F
  lagBytes : Option Nat

inductive Authority
  | static
  | provider (leader : Option Str) (epoch : Nat) (lease : Option Duration)

structure ReplicaView (F : Type) where
  address : Str
  weight : Nat
  latencyMs : F
  lagBytes : Option Nat

structure RoutingSnapshot (F : Type) where
  epoch : Nat
  authoritative : Bool
  leader : Option Str
  leaderValidUntil : Option Instant
  replicas : List (ReplicaView F)
  takenAt : Instant

variable {F : Type}

namespace RoutingSnapshot

def empty (authoritative : Bool) (now : Instant) : RoutingSnapshot F :=
  ⟨0, authoritative, none, none, [], now⟩

def target (nodes : List (NodeFacts F)) (authority : Authority) (now : Instant) :
    Bool × Nat × Option Str × Option Instant :=
  match authority with
  | .static =>
    let leader := nodes.find? fun n => n.enabled && n.healthy && n.role = .primary
    (false, 0, leader.map (·.address), none)
  | .provider leader epoch lease =>
    let leader := leader.filter fun l => nodes.any fun n => n.enabled && n.address = l
    (true, epoch, leader, leader.bind fun _ => lease.map (now + ·))

def build (nodes : List (NodeFacts F)) (authority : Authority) (now : Instant) :
    RoutingSnapshot F :=
  let (authoritative, epoch, leader, leaderValidUntil) := target nodes authority now
  let reads := nodes.filter fun n =>
    n.enabled && n.healthy &&
      match authoritative, leader with
      | true, some l => n.address ≠ l
      | _, _ => n.role = .standby || n.role = .readReplica
  { epoch, authoritative, leader, leaderValidUntil
    replicas := reads.map fun n => ⟨n.address, n.weight, n.latencyMs, n.lagBytes⟩
    takenAt := now }

def writeLeader (s : RoutingSnapshot F) (now : Instant) : Option Str :=
  match s.leaderValidUntil with
  | some til => if til ≤ now then none else s.leader
  | none => s.leader

/-- `publish_with`: the epoch of a static topology counts changes of leader. -/
def publishWith (prev next : RoutingSnapshot F) : RoutingSnapshot F :=
  if next.authoritative then next
  else { next with epoch := prev.epoch + if prev.leader ≠ next.leader then 1 else 0 }

end RoutingSnapshot

/-! ## The server's side -/

structure NodeConfig where
  address : Str
  role : NodeRole
  enabled : Bool
  weight : Nat

structure NodeHealth (F : Type) where
  healthy : Bool
  latencyMs : F
  replicationLagBytes : Option Nat

/-- What `take_routing_snapshot` reads of the server's state. -/
structure ServerState (F : Type) where
  nodes : List NodeConfig
  health : Str → Option (NodeHealth F)
  overridden : Str → Bool
  authoritativeTopology : Bool
  primaryTracker : PrimaryTracker

namespace ServerState

def facts [Zero F] (state : ServerState F) : List (NodeFacts F) :=
  state.nodes.map fun n =>
    let h := state.health n.address
    { address := n.address
      role := n.role
      enabled := n.enabled && !state.overridden n.address
      healthy := (h.map (·.healthy)).getD false
      weight := n.weight
      latencyMs := (h.map (·.latencyMs)).getD 0
      lagBytes := h.bind (·.replicationLagBytes) }

/-- `now` is read first, then the clock is read by `authority_valid` and by
`lease_remaining`. -/
def takeRoutingSnapshot [Zero F] (state : ServerState F) (now validAt leaseAt : Instant) :
    RoutingSnapshot F :=
  if state.authoritativeTopology then
    let tracker := state.primaryTracker
    let leader := if tracker.authorityValid validAt then tracker.getPrimaryAddress else none
    let lease := if tracker.hasProvider then tracker.leaseRemaining leaseAt else none
    .build state.facts (.provider leader tracker.epoch lease) now
  else .build state.facts .static now

def publishRouting [Zero F] (state : ServerState F) (published : RoutingSnapshot F)
    (now validAt leaseAt : Instant) : RoutingSnapshot F :=
  published.publishWith (state.takeRoutingSnapshot now validAt leaseAt)

end ServerState

/-- The published leader, for a session with the configuration `config`. -/
def snapshotLeader (published : RoutingSnapshot F) (config : List NodeConfig) (now : Instant) :
    Option Str :=
  (published.writeLeader now).filter fun leader =>
    config.any fun n => n.enabled && n.address = leader

/-! ## The lease of the published leader -/

/-- The lease is valid when the leader is read and has run out when its rest is read. -/
structure LapsesBetween (state : ServerState F) (validAt leaseAt : Instant) (leader : Str)
    (last : Instant) : Prop where
  held : state.primaryTracker.getPrimaryAddress = some leader
  enabled : ∃ n ∈ state.nodes, n.enabled ∧ state.overridden n.address = false ∧ n.address = leader
  refreshed : state.primaryTracker.lastRefresh = some last
  valid : elapsed last validAt ≤ state.primaryTracker.leaseTimeout
  lapsed : state.primaryTracker.leaseTimeout < elapsed last leaseAt

section provider

variable [Zero F] {state : ServerState F} (hauth : state.authoritativeTopology = true)
  (hprovider : state.primaryTracker.hasProvider = true) {now validAt leaseAt : Instant}

variable {leader : Str}

theorem facts_any {state : ServerState F} :
    (state.facts.any fun n => n.enabled && n.address = leader) ↔
      ∃ n ∈ state.nodes, n.enabled ∧ state.overridden n.address = false ∧ n.address = leader := by
  simp only [ServerState.facts, List.any_map, List.any_eq_true, Function.comp_apply,
    Bool.and_eq_true, Bool.not_eq_true', decide_eq_true_eq, and_assoc]

include hauth hprovider in
theorem leader_takeRoutingSnapshot :
    (state.takeRoutingSnapshot now validAt leaseAt).leader = some leader ↔
      state.primaryTracker.getPrimaryAddress = some leader ∧
        (∃ last, state.primaryTracker.lastRefresh = some last ∧
          elapsed last validAt ≤ state.primaryTracker.leaseTimeout) ∧
        ∃ n ∈ state.nodes, n.enabled ∧ state.overridden n.address = false ∧ n.address = leader := by
  have hsome : state.primaryTracker.getPrimaryAddress = some leader →
      state.primaryTracker.currentPrimary.isSome := fun h => by
    obtain ⟨info, hinfo, -⟩ := map_eq_some_iff.mp h
    rw [hinfo, isSome_some]
  simp only [ServerState.takeRoutingSnapshot, hauth, if_true, RoutingSnapshot.build,
    RoutingSnapshot.target, filter_eq_some_iff, facts_any]
  by_cases hvalid : state.primaryTracker.authorityValid validAt
  · obtain ⟨-, hlease⟩ := (PrimaryTracker.authorityValid_iff hprovider).mp hvalid
    simp only [hvalid, if_true]
    exact and_congr_right fun _ => ⟨fun h => ⟨hlease, h⟩, And.right⟩
  · simp only [hvalid, Bool.false_eq_true, if_false, reduceCtorEq, false_and, false_iff]
    rintro ⟨hleader, hlease, -⟩
    exact hvalid ((PrimaryTracker.authorityValid_iff hprovider).mpr ⟨hsome hleader, hlease⟩)

include hauth hprovider in
theorem validUntil_takeRoutingSnapshot
    (hleader : (state.takeRoutingSnapshot now validAt leaseAt).leader = some leader) :
    (state.takeRoutingSnapshot now validAt leaseAt).leaderValidUntil =
      (state.primaryTracker.leaseRemaining leaseAt).map (now + ·) := by
  simp only [ServerState.takeRoutingSnapshot, hauth, hprovider, if_true, RoutingSnapshot.build,
    RoutingSnapshot.target] at hleader ⊢
  rw [hleader, bind_some]

include hauth in
theorem publishRouting_eq (published : RoutingSnapshot F) :
    state.publishRouting published now validAt leaseAt =
      state.takeRoutingSnapshot now validAt leaseAt := by
  simp only [ServerState.publishRouting, RoutingSnapshot.publishWith,
    ServerState.takeRoutingSnapshot, hauth, if_true]
  rfl

include hauth hprovider in
theorem validUntil_eq_none_iff
    (hleader : (state.takeRoutingSnapshot now validAt leaseAt).leader = some leader) :
    (state.takeRoutingSnapshot now validAt leaseAt).leaderValidUntil = none ↔
      ∃ last, LapsesBetween state validAt leaseAt leader last := by
  obtain ⟨hheld, ⟨last, hlast, hvalid⟩, henabled⟩ :=
    (leader_takeRoutingSnapshot hauth hprovider).mp hleader
  rw [validUntil_takeRoutingSnapshot hauth hprovider hleader, map_eq_none_iff,
    PrimaryTracker.leaseRemaining, if_pos hprovider, hlast, bind_some]
  constructor
  · intro hnone
    refine ⟨last, hheld, henabled, hlast, hvalid, Nat.lt_of_not_le fun hle => ?_⟩
    rw [if_pos hle] at hnone
    cases hnone
  · rintro ⟨last', hlapses⟩
    obtain rfl : last = last' := Option.some.inj (hlast.symm.trans hlapses.refreshed)
    exact if_neg (Nat.not_le_of_lt hlapses.lapsed)

theorem expiry_le {now leaseAt last timeout : Nat} (hnow : now ≤ leaseAt)
    (hle : elapsed last leaseAt ≤ timeout) :
    now + (timeout - elapsed last leaseAt) ≤ last + timeout := by
  have hle : leaseAt - last ≤ timeout := hle
  unfold elapsed
  omega

include hauth hprovider in
theorem lt_of_writeLeader {til x : Instant} (hnow : now ≤ leaseAt)
    (hleader : (state.takeRoutingSnapshot now validAt leaseAt).writeLeader x = some leader)
    (htil : (state.takeRoutingSnapshot now validAt leaseAt).leaderValidUntil = some til) :
    ∃ last, state.primaryTracker.lastRefresh = some last ∧
      x < last + state.primaryTracker.leaseTimeout := by
  rw [RoutingSnapshot.writeLeader, htil] at hleader
  dsimp only at hleader
  split at hleader
  · cases hleader
  rename_i hx
  obtain ⟨-, ⟨last, hlast, -⟩, -⟩ := (leader_takeRoutingSnapshot hauth hprovider).mp hleader
  refine ⟨last, hlast, ?_⟩
  rw [validUntil_takeRoutingSnapshot hauth hprovider hleader, PrimaryTracker.leaseRemaining,
    if_pos hprovider, hlast, bind_some] at htil
  split at htil
  · rename_i hle
    cases htil
    exact Nat.lt_of_lt_of_le (Nat.lt_of_not_le hx) (expiry_le hnow hle)
  · cases htil

end provider

/-- A published leader never outlives its lease, and always carries an expiry, exactly
if its lease does not lapse between the two readings. -/
theorem leader_within_lease_iff [Zero F] (state : ServerState F) (published : RoutingSnapshot F)
    (hauth : state.authoritativeTopology = true)
    (hprovider : state.primaryTracker.hasProvider = true) (now validAt leaseAt : Instant)
    (hvalidAt : now ≤ validAt) (hleaseAt : validAt ≤ leaseAt) :
    ((∀ (config : List NodeConfig) (x : Instant) (leader : Str), leaseAt ≤ x →
        snapshotLeader (state.publishRouting published now validAt leaseAt) config x = some leader →
          ∃ last, state.primaryTracker.lastRefresh = some last ∧
            x < last + state.primaryTracker.leaseTimeout) ∧
      ((state.publishRouting published now validAt leaseAt).leader.isSome →
        (state.publishRouting published now validAt leaseAt).leaderValidUntil.isSome)) ↔
      ∀ leader last, ¬ LapsesBetween state validAt leaseAt leader last := by
  rw [publishRouting_eq hauth]
  constructor
  · rintro ⟨-, hexpiry⟩ leader last hlapses
    have hleader : (state.takeRoutingSnapshot now validAt leaseAt).leader = some leader :=
      (leader_takeRoutingSnapshot hauth hprovider).mpr
        ⟨hlapses.held, ⟨last, hlapses.refreshed, hlapses.valid⟩, hlapses.enabled⟩
    have hnone := (validUntil_eq_none_iff hauth hprovider hleader).mpr ⟨last, hlapses⟩
    rw [hleader, hnone] at hexpiry
    exact absurd (hexpiry rfl) (by decide)
  · intro hnot
    have hexpiry : ∀ leader, (state.takeRoutingSnapshot now validAt leaseAt).leader = some leader →
        ∃ til, (state.takeRoutingSnapshot now validAt leaseAt).leaderValidUntil = some til := by
      intro leader hleader
      refine ne_none_iff_exists'.mp fun hnone => ?_
      obtain ⟨last, hlapses⟩ := (validUntil_eq_none_iff hauth hprovider hleader).mp hnone
      exact hnot leader last hlapses
    refine ⟨fun config x leader hx hsome => ?_, fun hsome => ?_⟩
    · have hleader := (filter_eq_some_iff.mp hsome).1
      cases htil : (state.takeRoutingSnapshot now validAt leaseAt).leaderValidUntil with
      | some til =>
        exact lt_of_writeLeader hauth hprovider (Nat.le_trans hvalidAt hleaseAt) hleader htil
      | none =>
        rw [RoutingSnapshot.writeLeader, htil] at hleader
        obtain ⟨til, htil'⟩ := hexpiry leader hleader
        rw [htil] at htil'
        cases htil'
    · obtain ⟨leader, hleader⟩ := isSome_iff_exists.mp hsome
      obtain ⟨til, htil⟩ := hexpiry leader hleader
      rw [htil, isSome_some]

/-- A tracker with a leader refreshed at 100 and a lease of 10, in a cluster of one. -/
def leasedState : ServerState Nat where
  nodes := [⟨"a:5432", .primary, true, 1⟩]
  health := fun _ => none
  overridden := fun _ => false
  authoritativeTopology := true
  primaryTracker := ⟨true, some ⟨"a", "a:5432", 1⟩, 1, 10, some 100⟩

/-- Published well within the lease, the leader is named up to its end. -/
theorem leader_within_lease_early :
    let published := RoutingSnapshot.empty true 90
    snapshotLeader (leasedState.publishRouting published 103 104 105) leasedState.nodes 107 =
        some "a:5432".toList ∧
      ∀ (config : List NodeConfig) (x : Instant) (leader : Str), 105 ≤ x →
        snapshotLeader (leasedState.publishRouting published 103 104 105) config x = some leader →
          x < 110 := by
  intro published
  refine ⟨by decide, fun config x leader hx hsome => ?_⟩
  have hnot : ∀ leader last, ¬ LapsesBetween leasedState 104 105 leader last := by
    intro leader last hlapses
    obtain rfl : 100 = last := Option.some.inj hlapses.refreshed
    exact absurd hlapses.lapsed (by decide)
  obtain ⟨last, hlast, hlt⟩ := ((leader_within_lease_iff leasedState published rfl rfl 103 104 105
    (by decide) (by decide)).mpr hnot).1 config x leader hx hsome
  cases hlast
  exact hlt

/-- The lease runs out between the two readings: the leader is published for good. -/
theorem not_leader_within_lease :
    let published := RoutingSnapshot.empty true 90
    (leasedState.publishRouting published 109 110 111).leaderValidUntil = none ∧
      snapshotLeader (leasedState.publishRouting published 109 110 111) leasedState.nodes 1000000 =
        some "a:5432".toList := by
  decide

end HeliosProxy.Topology
