import HeliosProxy.Lib.Runs
import HeliosProxy.Text.Chars

/-!
# The primary tracker

A topology provider polls the nodes and names a primary, with the instant its
answer stands for; a change of primary is announced as an event.  The tracker
follows: it handles the events as they come, and compares with the provider now and
then.  Its lease counts from `lastRefresh`, which it reads from the provider at the
time of its own step, not at the time of the event.
-/

namespace HeliosProxy.Topology

open Text

abbrev Instant := Nat

abbrev Duration := Nat

/-- `Instant::elapsed` at a later reading of the clock; it saturates. -/
def elapsed (since now : Instant) : Duration := now - since

/-! ## Providers -/

structure TopologyNodeInfo where
  nodeId : Str
  clientAddr : Str
deriving DecidableEq

inductive TopologyEvent
  | primaryChanged (new : Str)
  | nodeLeft (nodeId : Str)
  | healthChanged (nodeId : Str) (isHealthy : Bool)

structure TopologyProvider where
  getPrimary : Option TopologyNodeInfo
  authorityConflict : Bool
  confirmedAt : Option Instant
  getNode : Str → Option TopologyNodeInfo

structure Poll where
  start : Instant
  chosen : Option TopologyNodeInfo
  conflict : Bool
  nodes : Str → Option TopologyNodeInfo

def TopologyProvider.polled (p : Poll) : TopologyProvider where
  getPrimary := p.chosen
  authorityConflict := p.conflict
  confirmedAt := p.chosen.map fun _ => p.start
  getNode := p.nodes

def announced (old : TopologyProvider) (p : Poll) : List TopologyEvent :=
  let new := p.chosen.map (·.nodeId)
  if old.getPrimary.map (·.nodeId) = new then []
  else (new.map TopologyEvent.primaryChanged).toList

/-! ## The tracker -/

structure PrimaryInfo where
  nodeId : Str
  address : Str
  epoch : Nat
deriving DecidableEq

structure PrimaryTracker where
  hasProvider : Bool
  currentPrimary : Option PrimaryInfo
  epoch : Nat
  leaseTimeout : Duration
  lastRefresh : Option Instant

namespace PrimaryTracker

def withProvider (leaseTimeout : Duration) : PrimaryTracker := ⟨true, none, 0, leaseTimeout, none⟩

def getPrimaryAddress (t : PrimaryTracker) : Option Str := t.currentPrimary.map (·.address)

/-- `checked_sub` of what has elapsed. -/
def leaseRemaining (t : PrimaryTracker) (now : Instant) : Option Duration :=
  if t.hasProvider then
    t.lastRefresh.bind fun last =>
      if elapsed last now ≤ t.leaseTimeout then some (t.leaseTimeout - elapsed last now) else none
  else none

def authorityValid (t : PrimaryTracker) (now : Instant) : Bool :=
  t.currentPrimary.isSome && (!t.hasProvider || (t.leaseRemaining now).isSome)

def clearPrimary (t : PrimaryTracker) : PrimaryTracker :=
  { t with currentPrimary := none, lastRefresh := none }

/-- `confirmed_by`: the instant the provider's answer stands for, or now. -/
def confirmedBy (provider : TopologyProvider) (now : Instant) : Instant :=
  provider.confirmedAt.getD now

def refresh (t : PrimaryTracker) (provider : TopologyProvider) (now : Instant) : PrimaryTracker :=
  { t with lastRefresh := some (confirmedBy provider now) }

def follow (t : PrimaryTracker) (nodeId address : Str) : PrimaryTracker :=
  { t with epoch := t.epoch + 1, currentPrimary := some ⟨nodeId, address, t.epoch + 1⟩ }

def detectPrimaryFromProvider (t : PrimaryTracker) (provider : TopologyProvider) (now : Instant) :
    PrimaryTracker :=
  match provider.getPrimary with
  | none => t
  | some primary =>
    let t := t.refresh provider now
    if t.getPrimaryAddress = some primary.clientAddr then t
    else t.follow primary.nodeId primary.clientAddr

def handlePrimaryChanged (t : PrimaryTracker) (provider : TopologyProvider) (new : Str)
    (now : Instant) : PrimaryTracker :=
  if t.currentPrimary.map (·.nodeId) = some new then t.refresh provider now
  else
    let address := ((provider.getNode new).map (·.clientAddr)).getD (new ++ ":5432")
    (t.follow new address).refresh provider now

def handleNodeLeft (t : PrimaryTracker) (nodeId : Str) : PrimaryTracker :=
  if t.currentPrimary.map (·.nodeId) = some nodeId then t.clearPrimary else t

def handle (t : PrimaryTracker) (provider : TopologyProvider) (now : Instant) :
    TopologyEvent → PrimaryTracker
  | .primaryChanged new => t.handlePrimaryChanged provider new now
  | .nodeLeft nodeId => t.handleNodeLeft nodeId
  | .healthChanged _ _ => t

def periodicCheck (t : PrimaryTracker) (provider : TopologyProvider) (now : Instant) :
    PrimaryTracker :=
  if provider.authorityConflict then
    if t.currentPrimary.isSome then t.clearPrimary else t
  else
    match t.currentPrimary with
    | none => t.detectPrimaryFromProvider provider now
    | some info =>
      match provider.getPrimary with
      | some primary =>
        if primary.nodeId = info.nodeId then t.refresh provider now
        else t.handlePrimaryChanged provider primary.nodeId now
      | none =>
        let t := if (provider.getNode info.nodeId).isSome then t else t.clearPrimary
        if t.authorityValid now then t else t.clearPrimary

/-- What a step of the tracker may do: hold nothing, hold on to what it held since the
same instant, or hold the provider's own primary from the instant of its answer. -/
inductive Moves (provider : TopologyProvider) (t t' : PrimaryTracker) : Prop
  | cleared (hc : t'.currentPrimary = none)
  | kept (hc : t'.currentPrimary = t.currentPrimary) (hr : t'.lastRefresh = t.lastRefresh)
  | followed (now : Instant)
      (hc : t'.currentPrimary.map (·.nodeId) = provider.getPrimary.map (·.nodeId))
      (hr : t'.lastRefresh = some (confirmedBy provider now))

variable {t : PrimaryTracker} {provider : TopologyProvider}

theorem authorityValid_iff (hprovider : t.hasProvider) {now : Instant} :
    t.authorityValid now ↔ t.currentPrimary.isSome ∧
      ∃ last, t.lastRefresh = some last ∧ elapsed last now ≤ t.leaseTimeout := by
  simp only [authorityValid, leaseRemaining, hprovider, Bool.not_true, Bool.false_or,
    Bool.and_eq_true, if_true]
  cases t.lastRefresh with
  | none => simp
  | some last => by_cases hle : elapsed last now ≤ t.leaseTimeout <;> simp [hle]

theorem moves_detect (hidle : t.currentPrimary = none) (now : Instant) :
    Moves provider t (t.detectPrimaryFromProvider provider now) := by
  rw [detectPrimaryFromProvider]
  split
  · exact .kept rfl rfl
  · rename_i primary hprimary
    rw [if_neg (by simp [getPrimaryAddress, refresh, hidle])]
    exact .followed now (by rw [hprimary]; rfl) rfl

theorem moves_handlePrimaryChanged {new : Str}
    (hnew : provider.getPrimary.map (·.nodeId) = some new) (now : Instant) :
    Moves provider t (t.handlePrimaryChanged provider new now) := by
  rw [handlePrimaryChanged]
  split
  · rename_i hcurrent
    exact .followed now (hcurrent.trans hnew.symm) rfl
  · exact .followed now hnew.symm rfl

theorem moves_handle {e : TopologyEvent}
    (hnew : ∀ id, e = .primaryChanged id → provider.getPrimary.map (·.nodeId) = some id)
    (now : Instant) : Moves provider t (t.handle provider now e) := by
  cases e with
  | primaryChanged new => exact moves_handlePrimaryChanged (hnew new rfl) now
  | nodeLeft nodeId =>
    rw [handle, handleNodeLeft]
    split
    · exact .cleared rfl
    · exact .kept rfl rfl
  | healthChanged _ _ => exact .kept rfl rfl

theorem moves_periodicCheck (t : PrimaryTracker) (provider : TopologyProvider) (now : Instant) :
    Moves provider t (t.periodicCheck provider now) := by
  rw [periodicCheck]
  split
  · split
    · exact .cleared rfl
    · exact .kept rfl rfl
  · split
    · rename_i hidle
      exact moves_detect hidle now
    · rename_i info hinfo
      split
      · rename_i primary hprimary
        split
        · rename_i hsame
          exact .followed now (by simp [refresh, hinfo, hprimary, hsame]) rfl
        · exact moves_handlePrimaryChanged (by rw [hprimary]; rfl) now
      · dsimp only
        split
        · split
          · exact .kept rfl rfl
          · exact .cleared rfl
        · exact .cleared rfl

end PrimaryTracker

/-! ## Provider and tracker side by side -/

/-- The provider, the tracker once it runs, the events it has not handled yet, and
every poll so far. -/
structure Tracking where
  provider : TopologyProvider
  tracker : PrimaryTracker
  running : Bool
  queue : List TopologyEvent
  polls : List Poll

/-- `run` subscribes to the provider and detects its primary, and then takes events
and ticks as they come.  A receiver that lags loses the oldest events. -/
inductive TrackingStep
  | poll (p : Poll)
  | announce (e : TopologyEvent)
  | start (now : Instant)
  | handle (now : Instant)
  | lagged (n : Nat)
  | check (now : Instant)

namespace Tracking

def init (leaseTimeout : Duration) : Tracking where
  provider := ⟨none, false, none, fun _ => none⟩
  tracker := .withProvider leaseTimeout
  running := false
  queue := []
  polls := []

def step (s : Tracking) : TrackingStep → Option Tracking
  | .poll p =>
    some { s with
      provider := .polled p
      queue := s.queue ++ announced s.provider p
      polls := s.polls ++ [p] }
  -- changes of primary are announced by polls only
  | .announce (.primaryChanged _) => none
  | .announce e => some { s with queue := s.queue ++ [e] }
  | .start now =>
    if s.running then none
    else
      some { s with
        running := true
        queue := []
        tracker := s.tracker.detectPrimaryFromProvider s.provider now }
  | .handle now =>
    match s.running, s.queue with
    | true, e :: queue => some { s with queue, tracker := s.tracker.handle s.provider now e }
    | _, _ => none
  | .lagged n => some { s with queue := s.queue.drop n }
  | .check now =>
    if s.running then some { s with tracker := s.tracker.periodicCheck s.provider now } else none

def Backed (s : Tracking) : Prop :=
  ∀ info ∈ s.tracker.currentPrimary, ∀ last ∈ s.tracker.lastRefresh,
    ∃ p ∈ s.polls, last ≤ p.start ∧ p.chosen.map (·.nodeId) = some info.nodeId

def HandledInTime (s : Tracking) : TrackingStep → Prop
  | .handle _ =>
    ∀ new ∈ s.queue.head?, ∀ id, new = .primaryChanged id →
      s.provider.getPrimary.map (·.nodeId) = some id
  | _ => True

structure Inv (s : Tracking) : Prop where
  /-- The provider's answer is that of one of its polls. -/
  answer : ∀ primary ∈ s.provider.getPrimary, ∃ p ∈ s.polls,
    s.provider.confirmedAt = some p.start ∧ p.chosen = some primary
  idle : s.running = false → s.tracker.currentPrimary = none
  backed : s.Backed

variable {s s' : Tracking}

theorem Inv.init (leaseTimeout : Duration) : (init leaseTimeout).Inv where
  answer _ h := nomatch h
  idle _ := rfl
  backed _ h := nomatch h

theorem Inv.moves (h : s.Inv) {t : PrimaryTracker} (ht : s.tracker.Moves s.provider t) :
    { s with tracker := t }.Backed := by
  intro info hinfo last hlast
  cases ht with
  | cleared hcurrent =>
    rw [hcurrent] at hinfo
    cases hinfo
  | kept hcurrent hrefresh => exact h.backed info (hcurrent ▸ hinfo) last (hrefresh ▸ hlast)
  | followed now hcurrent hrefresh =>
    rw [hinfo] at hcurrent
    obtain ⟨primary, hprimary, hid⟩ := Option.map_eq_some_iff.mp hcurrent.symm
    obtain ⟨p, hp, hconfirmed, hchosen⟩ := h.answer primary hprimary
    rw [hrefresh, PrimaryTracker.confirmedBy, hconfirmed] at hlast
    cases hlast
    refine ⟨p, hp, Nat.le_refl _, ?_⟩
    rw [hchosen]
    exact congrArg some hid

theorem Backed.polled (h : s.Backed) (p : Poll) : { s with polls := s.polls ++ [p] }.Backed := by
  intro info hinfo last hlast
  obtain ⟨q, hq, hback⟩ := h info hinfo last hlast
  exact ⟨q, List.mem_append_left _ hq, hback⟩

theorem Inv.step (h : s.Inv) {e : TrackingStep} (hin : s.HandledInTime e)
    (hstep : s.step e = some s') : s'.Inv := by
  cases e with
  | poll p =>
    cases hstep
    refine ⟨fun primary hprimary => ?_, h.idle, h.backed.polled p⟩
    refine ⟨p, List.mem_append_right _ List.mem_cons_self, ?_, hprimary⟩
    exact congrArg (Option.map fun _ => p.start) hprimary
  | announce e =>
    cases e with
    | primaryChanged new => cases hstep
    | nodeLeft _ | healthChanged _ _ =>
      cases hstep
      exact ⟨h.answer, h.idle, h.backed⟩
  | start now =>
    simp only [Tracking.step] at hstep
    split at hstep
    · cases hstep
    · rename_i hidle
      cases hstep
      have hnone := h.idle (by simpa using hidle)
      exact ⟨h.answer, nofun, h.moves (PrimaryTracker.moves_detect hnone now)⟩
  | handle now =>
    simp only [Tracking.step] at hstep
    split at hstep
    · rename_i e queue hrunning hqueue
      cases hstep
      refine ⟨h.answer, fun hidle => ?_, h.moves (PrimaryTracker.moves_handle ?_ now)⟩
      · exact absurd (hrunning.symm.trans hidle) (by decide)
      · exact hin e (by rw [hqueue]; rfl)
    · cases hstep
  | lagged n =>
    cases hstep
    exact ⟨h.answer, h.idle, h.backed⟩
  | check now =>
    simp only [Tracking.step] at hstep
    split at hstep
    · rename_i hrunning
      cases hstep
      refine ⟨h.answer, fun hidle => ?_, h.moves (PrimaryTracker.moves_periodicCheck _ _ now)⟩
      exact absurd (hrunning.symm.trans hidle) (by decide)
    · cases hstep

end Tracking

/-- When every change of primary is handled while the provider still reports it, the
leader the tracker holds is backed by a poll at every moment. -/
theorem leadership_backed (leaseTimeout : Duration) (steps : List TrackingStep) (s : Tracking)
    (hran : Runs.run Tracking.step (.init leaseTimeout) steps = some s)
    (halong : Runs.Along Tracking.step Tracking.HandledInTime (.init leaseTimeout) steps) :
    s.Backed := by
  have hinv : s.Inv := Runs.run_invariant_along
    (fun _ _ _ h hin hstep => h.step hin hstep) (Tracking.Inv.init leaseTimeout) halong hran
  exact hinv.backed

def nodeA : TopologyNodeInfo := ⟨"a", "a:5432"⟩

def nodeB : TopologyNodeInfo := ⟨"b", "b:5432"⟩

def pollOf (start : Instant) (chosen : Option TopologyNodeInfo) : Poll :=
  ⟨start, chosen, false, fun id => [nodeA, nodeB].find? (·.nodeId = id)⟩

/-- A failover that is handled in time, and a refresh of the new leader's lease. -/
theorem leadership_backed_failover :
    let steps : List TrackingStep :=
      [.poll (pollOf 10 nodeA), .start 11, .poll (pollOf 20 nodeB), .handle 21, .check 25,
        .poll (pollOf 30 nodeB), .check 31]
    ∃ s, Runs.run Tracking.step (.init 10) steps = some s ∧
      s.tracker.currentPrimary = some ⟨"b", "b:5432", 2⟩ ∧
      s.tracker.lastRefresh = some 30 ∧ s.Backed := by
  intro steps
  refine ⟨_, rfl, by decide, by decide, leadership_backed 10 steps _ rfl ?_⟩
  simp [steps, Runs.Along, Tracking.HandledInTime, Tracking.step, Tracking.init, announced, pollOf,
    TopologyProvider.polled, nodeA, nodeB]

/-- The change to the second node is handled when the provider has lost it: the lease
counts from the tracker's own clock. -/
theorem not_leadership_backed :
    ∃ s, Runs.run Tracking.step (.init 10)
        [.poll (pollOf 10 nodeA), .start 11, .poll (pollOf 20 nodeB), .poll (pollOf 30 none),
          .handle 40] = some s ∧
      s.tracker.lastRefresh = some 40 ∧ ¬ s.Backed := by
  refine ⟨_, rfl, by decide, fun h => ?_⟩
  obtain ⟨p, hp, hstart, -⟩ := h _ rfl 40 rfl
  have hearlier : ∀ p ∈ [pollOf 10 nodeA, pollOf 20 nodeB, pollOf 30 none], p.start < 40 := by decide
  exact absurd hstart (Nat.not_le_of_lt (hearlier p hp))

/-! ## Nodes that each report themselves writable -/

/-- A candidate: its index, and its timeline if that is known. -/
abbrev Candidate := Nat × Option Nat

/-- The loop of `choose_by_timeline`, from a best candidate so far that is `tied` or not. -/
def chooseFrom : Option (Nat × Nat) → Bool → List Candidate → Option Nat
  | best, tied, [] => if tied then none else best.map (·.1)
  | _, _, (_, none) :: _ => none
  | none, tied, (idx, some t) :: cs => chooseFrom (some (idx, t)) tied cs
  | some (i, b), tied, (idx, some t) :: cs =>
    if b < t then chooseFrom (some (idx, t)) false cs
    else if t = b then chooseFrom (some (i, b)) true cs
    else chooseFrom (some (i, b)) tied cs

def chooseByTimeline : List Candidate → Option Nat := chooseFrom none false

def Below (t : Nat) (cs : List Candidate) : Prop := ∀ c ∈ cs, ∃ u ∈ c.2, u < t

/-- Candidate `i` is ahead of every other one in the list, and of what `best` holds. -/
def Leads (best : Option Nat) (i : Nat) (cs : List Candidate) : Prop :=
  ∃ front t back, cs = front ++ (i, some t) :: back ∧ Below t (front ++ back) ∧ ∀ b ∈ best, b < t

variable {best : Option Nat} {i k t b : Nat} {cs cs' : List Candidate}

theorem below_cons {c : Candidate} : Below t (c :: cs) ↔ (∃ u ∈ c.2, u < t) ∧ Below t cs :=
  List.forall_mem_cons

theorem leads_cons {c : Candidate} : Leads best i (c :: cs) ↔
    (∃ t, c = (i, some t) ∧ Below t cs ∧ ∀ b ∈ best, b < t) ∨
      ∃ u ∈ c.2, Leads (some (best.elim u (max u))) i cs := by
  constructor
  · rintro ⟨front, t, back, hs, hb, ha⟩
    obtain ⟨rfl, hsa⟩ | ⟨front, rfl, rfl⟩ := List.cons_eq_append_iff.mp hs
    · cases hsa
      exact .inl ⟨t, rfl, hb, ha⟩
    · obtain ⟨⟨u, hu, hlt⟩, hb⟩ := below_cons.mp hb
      refine .inr ⟨u, hu, front, t, back, rfl, hb, ?_⟩
      cases best <;> simp_all
  · rintro (⟨t, rfl, hb, ha⟩ | ⟨u, hu, front, t, back, rfl, hb, ha⟩)
    · exact ⟨[], t, cs, rfl, hb, ha⟩
    · refine ⟨c :: front, t, back, rfl, below_cons.mpr ⟨⟨u, hu, ?_⟩, hb⟩, ?_⟩ <;> cases best <;> simp_all

/-- What the loop holds of the candidates behind it: only the best timeline, and whether
two of them have it. -/
theorem chooseFrom_eq_some (j : Nat) (tied : Bool) :
    chooseFrom (some (j, b)) tied cs = some i ↔ Leads (some b) i cs ∨ tied = false ∧ i = j ∧ Below b cs := by
  induction cs generalizing j b tied with
  | nil => cases tied <;> simp [chooseFrom, Leads, Below, eq_comm (a := i)]
  | cons c cs ih =>
    obtain ⟨idx, none | t⟩ := c
    · simp [chooseFrom, leads_cons, below_cons]
    · rw [leads_cons, below_cons]
      rcases lt_trichotomy t b with hlt | rfl | hg
      · simp [chooseFrom, ih, hlt, hlt.le, hlt.not_gt, hlt.ne]
      · simp [chooseFrom, ih]
      · simp [chooseFrom, ih, hg, hg.le, or_comm, eq_comm]

theorem Leads.perm (h : cs.Perm cs') : Leads best i cs → Leads best i cs' := by
  rintro ⟨front, t, back, rfl, hb, ha⟩
  have hm : (i, some t) ∈ cs' := h.subset List.mem_append_cons_self
  obtain ⟨front', back', rfl⟩ := List.append_of_mem hm
  have hr := ((List.perm_middle.symm.trans h).trans List.perm_middle).cons_inv
  exact ⟨front', t, back', rfl, fun c hm => hb c (hr.mem_iff.mpr hm), ha⟩

theorem chooseByTimeline_leads (cs : List Candidate) :
    (∀ i, chooseByTimeline cs = some i ↔ Leads none i cs) ∧
      ∀ cs', cs.Perm cs' → chooseByTimeline cs' = chooseByTimeline cs := by
  have hleads (cs i) : chooseByTimeline cs = some i ↔ Leads none i cs := by
    obtain _ | ⟨⟨idx, none | t⟩, cs⟩ := cs
    · simp [chooseByTimeline, chooseFrom, Leads]
    · simp [chooseByTimeline, chooseFrom, leads_cons]
    · simp [chooseByTimeline, chooseFrom, chooseFrom_eq_some, leads_cons, or_comm, eq_comm (a := i)]
  refine ⟨hleads cs, fun cs' h => Option.ext fun i => ?_⟩
  rw [hleads, hleads]
  exact ⟨.perm h.symm, .perm h⟩

end HeliosProxy.Topology
