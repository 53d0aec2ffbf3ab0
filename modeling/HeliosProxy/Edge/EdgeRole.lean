import HeliosProxy.Edge.HomeRole

/-!
# The stamps of an edge

On an edge the versions are the home's.  A read that misses takes the last home version
seen as its stamp, then the number of invalidations applied so far, and stores its
answer if that number is still the same.  An event of the home is applied in the order
`on_home_epoch`, `invalidate`, `observe_home_version`; a new epoch starts the home's
clock again, and the cache is flushed.

An entry whose stamp is no higher than the last version seen is dropped by every later
event about its tables.  A read that takes its stamp before a restart of the home and
the number after it gets past the check, with a stamp of the old clock.
-/

namespace HeliosProxy.Edge

open Text (Str)

variable {K : Type} [DecidableEq K]

structure HomeEvent where
  epoch : Nat
  upToVersion : Nat
  tables : List Str
deriving DecidableEq

/-- Where `apply_invalidation` is with an event. -/
inductive Applier
  | idle
  /-- The epoch is a new one, and has been swapped in. -/
  | restarted (ev : HomeEvent)
  /-- `observed_home` is reset; the flush has not begun. -/
  | zeroed (ev : HomeEvent)
  /-- The flush has counted itself and waits for the lock. -/
  | flushing (ev : HomeEvent)
  | current (ev : HomeEvent)
  | counted (ev : HomeEvent)
  | raised (ev : HomeEvent)
  | swept (ev : HomeEvent)
deriving DecidableEq

def Applier.resetting : Applier → Bool
  | .zeroed _ | .flushing _ => true
  | _ => false

def Applier.isZeroed : Applier → Bool
  | .zeroed _ => true
  | _ => false

inductive EdgeRead
  | stamped (version : Nat)
  | ready (version epoch : Nat)
  | done
deriving DecidableEq

structure EdgeState (K : Type) where
  cache : EdgeCache K
  homeEpoch : Nat
  applier : Applier
  reads : List EdgeRead

inductive EdgeStep (K : Type)
  /-- A read that missed loads `observed_home`. -/
  | read
  /-- The `i`-th read loads the invalidation epoch. -/
  | loadEpoch (i : Nat)
  | store (i : Nat) (k : K) (responseBytes : List UInt8) (tables : List Str) (expiresAt : Nat)
  /-- An event of the home comes in, and its epoch is swapped in. -/
  | event (ev : HomeEvent)
  /-- The next step of the event being applied. -/
  | advance
  | get (k : K) (now : Nat)
  | setMaxEntryBytes (n : Nat)

namespace EdgeState

def start (capacity maxEntryBytes maxTotalBytes : Nat) : EdgeState K :=
  ⟨⟨.empty, capacity, maxEntryBytes, maxTotalBytes, 1, 0, 0, 0⟩, 0, .idle, []⟩

/-- The swap of `on_home_epoch`. -/
def onHomeEpoch (s : EdgeState K) (ev : HomeEvent) : EdgeState K :=
  if ev.epoch = 0 then { s with applier := .current ev }
  else if s.homeEpoch = 0 ∨
    s.homeEpoch = ev.epoch then { s with homeEpoch := ev.epoch, applier := .current ev }
  else { s with homeEpoch := ev.epoch, applier := .restarted ev }

def observeHomeVersion (c : EdgeCache K) (v : Nat) : EdgeCache K :=
  { c with observedHome := max c.observedHome v, nextVersion := max c.nextVersion (v + 1) }

def advance (s : EdgeState K) : Option (EdgeState K) :=
  match s.applier with
  | .idle => none
  | .restarted ev =>
    some { s with cache := { s.cache with observedHome := 0 }, applier := .zeroed ev }
  | .zeroed ev => some { s with cache := s.cache.countInvalidation, applier := .flushing ev }
  | .flushing ev =>
    some { s with cache := { s.cache with map := s.cache.map.clear }, applier := .current ev }
  | .current ev => some { s with cache := s.cache.countInvalidation, applier := .counted ev }
  | .counted ev => some { s with cache := s.cache.raiseHwm ev.upToVersion, applier := .raised ev }
  | .raised ev =>
    some { s with cache := s.cache.sweep ev.upToVersion ev.tables, applier := .swept ev }
  | .swept ev =>
    some { s with cache := observeHomeVersion s.cache ev.upToVersion, applier := .idle }

def step (s : EdgeState K) : EdgeStep K → Option (EdgeState K)
  | .read => some { s with reads := s.reads ++ [.stamped s.cache.observedHome] }
  | .loadEpoch i =>
    match s.reads[i]? with
    | some (.stamped version) =>
      some { s with reads := s.reads.set i (.ready version s.cache.invalidations) }
    | _ => none
  | .store i k responseBytes tables expiresAt =>
    match s.reads[i]? with
    | some (.ready version epoch) =>
      some { s with
        reads := s.reads.set i .done
        cache := s.cache.insertIfEpoch k ⟨version, responseBytes, tables, expiresAt⟩ epoch }
    | _ => none
  | .event ev => if s.applier = .idle then some (s.onHomeEpoch ev) else none
  | .advance => s.advance
  | .get k now => some { s with cache := (s.cache.get k now).2 }
  | .setMaxEntryBytes n => some { s with cache := { s.cache with maxEntryBytes := n } }

/-- The stamp is one of the home's clock, or the flush of that clock's restart has still
to count itself. -/
def CurrentStamp (s : EdgeState K) : Option EdgeRead → Prop
  | some (.stamped version) => s.applier.isZeroed = true ∨ version ≤ s.cache.observedHome
  | _ => True

def StampCurrent (s : EdgeState K) : EdgeStep K → Prop
  | .loadEpoch i => s.CurrentStamp s.reads[i]?
  | _ => True

instance (s : EdgeState K) : (r : Option EdgeRead) → Decidable (s.CurrentStamp r)
  | some (.stamped version) =>
    inferInstanceAs (Decidable (s.applier.isZeroed = true ∨ version ≤ s.cache.observedHome))
  | some (.ready ..) | some .done | none => isTrue trivial

instance (s : EdgeState K) (a : EdgeStep K) : Decidable (s.StampCurrent a) := by
  cases a <;> unfold EdgeState.StampCurrent <;> infer_instance

/-! ## The invariant -/

/-- A read that has both its loads: it will be refused, or its stamp is one of the clock. -/
def Ready (s : EdgeState K) (version epoch : Nat) : Prop :=
  epoch ≤ s.cache.invalidations ∧
    (s.applier.isZeroed = true ∨ epoch ≠ s.cache.invalidations ∨ version ≤ s.cache.observedHome)

structure Inv (s : EdgeState K) : Prop where
  covered : s.cache.map.Covered
  stamped : s.applier.resetting = true ∨ ∀ k e, s.cache.map.peek k = some e →
    e.version ≤ s.cache.observedHome
  ready : ∀ version epoch, .ready version epoch ∈ s.reads → s.Ready version epoch

end EdgeState

namespace EdgeCache

theorem insertLocked_counters (c : EdgeCache K) (k : K) (e : CacheEntry) :
    (c.insertLocked k e).invalidations = c.invalidations ∧
      (c.insertLocked k e).observedHome = c.observedHome := by
  unfold insertLocked
  split <;> exact ⟨rfl, rfl⟩

theorem insertIfEpoch_spec {c : EdgeCache K} (h : c.map.Covered) (k : K) (e : CacheEntry)
    (epoch : Nat) : (c.insertIfEpoch k e epoch).map.Covered ∧
      (c.insertIfEpoch k e epoch).invalidations = c.invalidations ∧
      (c.insertIfEpoch k e epoch).observedHome = c.observedHome ∧
      ∀ k' e', (c.insertIfEpoch k e epoch).map.peek k' = some e' →
        c.map.peek k' = some e' ∨ e' = e ∧ epoch = c.invalidations := by
  unfold insertIfEpoch
  split
  · exact ⟨h, rfl, rfl, fun k' e' he' => .inl he'⟩
  · rename_i hcurrent
    obtain ⟨hcovered, hpeek⟩ := insertLocked_covered h k e
    obtain ⟨hcount, hobserved⟩ := insertLocked_counters c k e
    refine ⟨hcovered, hcount, hobserved, fun k' e' he' => (hpeek k' e' he').imp id fun hnew => ?_⟩
    exact ⟨hnew.2, by_contra fun hne => hcurrent (.inr (Ne.symm hne))⟩

theorem get_counters (c : EdgeCache K) (k : K) (now : Nat) :
    (c.get k now).2.invalidations = c.invalidations ∧
      (c.get k now).2.observedHome = c.observedHome := by
  unfold get
  split
  · exact ⟨rfl, rfl⟩
  · split <;> exact ⟨rfl, rfl⟩

end EdgeCache

namespace EdgeState

/-- The cache changed in ways the reads do not see: no entry is new, and the counters
are as they were. -/
theorem Inv.cache {s : EdgeState K} (h : s.Inv) {c : EdgeCache K} (hcovered : c.map.Covered)
    (hcount : c.invalidations = s.cache.invalidations)
    (hobserved : c.observedHome = s.cache.observedHome)
    (hpeek : ∀ k e, c.map.peek k = some e → s.cache.map.peek k = some e) :
    Inv { s with cache := c } where
  covered := hcovered
  stamped := h.stamped.imp id fun hle k e he => hobserved ▸ hle k e (hpeek k e he)
  ready version epoch hmem := by
    rw [Ready, hcount, hobserved]
    exact h.ready version epoch hmem

theorem Inv.store {s : EdgeState K} (h : s.Inv) {i version epoch : Nat}
    (hread : s.reads[i]? = some (.ready version epoch))
    (k : K) {e : CacheEntry} (he : e.version = version) :
    Inv { s with reads := s.reads.set i .done, cache := s.cache.insertIfEpoch k e epoch } := by
  obtain ⟨hcovered, hcount, hobserved, hpeek⟩ := EdgeCache.insertIfEpoch_spec h.covered k e epoch
  refine ⟨hcovered, ?_, fun version' epoch' hmem => ?_⟩
  · rcases h.stamped with hreset | hle
    · exact .inl hreset
    obtain ⟨-, hzeroed | hne | hstamp⟩ := h.ready version epoch (List.mem_of_getElem? hread)
    · refine .inl ?_
      revert hzeroed
      cases s.applier <;> simp [Applier.isZeroed, Applier.resetting]
    · refine .inr fun k' e' he' => ?_
      rcases hpeek k' e' he' with hh | ⟨-, heq⟩
      · exact hobserved ▸ hle k' e' hh
      · exact absurd heq hne
    · refine .inr fun k' e' he' => ?_
      rcases hpeek k' e' he' with hh | ⟨rfl, -⟩
      · exact hobserved ▸ hle k' e' hh
      · exact hobserved ▸ he ▸ hstamp
  · have hh :=
      h.ready version' epoch' ((List.mem_or_eq_of_mem_set hmem).resolve_right (by rintro ⟨⟩))
    rwa [Ready, hcount, hobserved]

theorem Inv.stamped_of {s : EdgeState K} (h : s.Inv) (ha : s.applier.resetting = false) (k : K)
    (e : CacheEntry) (he : s.cache.map.peek k = some e) : e.version ≤ s.cache.observedHome :=
  h.stamped.resolve_left (by rw [ha]; decide) k e he

theorem Inv.ready_of {s : EdgeState K} (h : s.Inv) (ha : s.applier.isZeroed = false)
    {version epoch : Nat} (hmem : .ready version epoch ∈ s.reads) :
    epoch ≤ s.cache.invalidations ∧
      (epoch ≠ s.cache.invalidations ∨ version ≤ s.cache.observedHome) :=
  (h.ready version epoch hmem).imp id fun hrest => hrest.resolve_left (by rw [ha]; decide)

theorem Inv.outdated {s : EdgeState K} (h : s.Inv) {version epoch : Nat}
    (hmem : .ready version epoch ∈ s.reads) :
    epoch ≤ s.cache.invalidations + 1 ∧ epoch ≠ s.cache.invalidations + 1 := by
  have hle := (h.ready version epoch hmem).1
  exact ⟨hle.trans (Nat.le_succ _), Nat.ne_of_lt (Nat.lt_succ_of_le hle)⟩

theorem Inv.event {s : EdgeState K} (h : s.Inv) (hidle : s.applier = .idle) (ev : HomeEvent) :
    (s.onHomeEpoch ev).Inv := by
  have hmove :
    ∀ homeEpoch applier, Inv { s with homeEpoch := homeEpoch, applier := applier } := fun _ _ =>
    ⟨h.covered, .inr (h.stamped_of (by rw [hidle]; rfl)), fun _ _ hmem =>
      (h.ready_of (by rw [hidle]; rfl) hmem).imp id .inr⟩
  unfold onHomeEpoch
  split
  · exact hmove s.homeEpoch _
  split
  · exact hmove _ _
  · exact hmove _ _

theorem Inv.advance {s s' : EdgeState K} (h : s.Inv) (hstep : s.advance = some s') : s'.Inv := by
  unfold EdgeState.advance at hstep
  split at hstep
  · cases hstep
  · -- the old entries stay until the flush
    cases hstep
    exact ⟨h.covered, .inl rfl,
      fun version epoch hmem => ⟨(h.ready version epoch hmem).1, .inl rfl⟩⟩
  · cases hstep
    exact ⟨h.covered, .inl rfl, fun _ _ hmem => (h.outdated hmem).imp id fun hne => .inr (.inl hne)⟩
  · rename_i ev happlier
    cases hstep
    refine ⟨MapState.covered_empty, .inr fun k e he => (by cases he), fun _ _ hmem => ?_⟩
    exact (h.ready_of (by rw [happlier]; rfl) hmem).imp id .inr
  · rename_i ev happlier
    cases hstep
    refine ⟨h.covered, .inr (h.stamped_of (by rw [happlier]; rfl)), fun _ _ hmem => ?_⟩
    exact (h.outdated hmem).imp id fun hne => .inr (.inl hne)
  · rename_i ev happlier
    cases hstep
    refine ⟨h.covered, .inr (h.stamped_of (by rw [happlier]; rfl)), fun _ _ hmem => ?_⟩
    exact (h.ready_of (by rw [happlier]; rfl) hmem).imp id .inr
  · rename_i ev happlier
    cases hstep
    refine ⟨h.covered.foldl_pop _, .inr fun k e he => ?_, fun _ _ hmem => ?_⟩
    · rw [EdgeCache.peek_sweep] at he
      split at he
      · cases he
      · exact h.stamped_of (by rw [happlier]; rfl) k e he
    · exact (h.ready_of (by rw [happlier]; rfl) hmem).imp id .inr
  · rename_i ev happlier
    cases hstep
    refine ⟨h.covered, .inr fun k e he => ?_, fun _ _ hmem => ?_⟩
    · exact (h.stamped_of (by rw [happlier]; rfl) k e he).trans (le_max_left _ _)
    · refine (h.ready_of (by rw [happlier]; rfl) hmem).imp id fun hrest =>
        .inr (hrest.imp id fun hstamp => ?_)
      exact hstamp.trans (le_max_left _ _)

theorem Inv.step {s s' : EdgeState K} (h : s.Inv) {a : EdgeStep K} (hcurrent : s.StampCurrent a)
    (hstep : s.step a = some s') : s'.Inv := by
  cases a with
  | read =>
    cases hstep
    refine ⟨h.covered, h.stamped, fun version epoch hmem => h.ready version epoch ?_⟩
    rcases List.mem_append.mp hmem with hmem | hmem
    · exact hmem
    · exact absurd (List.mem_singleton.mp hmem) (by rintro ⟨⟩)
  | loadEpoch i =>
    simp only [EdgeState.step] at hstep
    split at hstep
    · rename_i version hread
      cases hstep
      rw [StampCurrent, hread] at hcurrent
      refine ⟨h.covered, h.stamped, fun version' epoch' hmem => ?_⟩
      rcases List.mem_or_eq_of_mem_set hmem with hmem | heq
      · exact h.ready version' epoch' hmem
      · cases heq
        exact ⟨le_refl _, hcurrent.imp id .inr⟩
    · cases hstep
  | store i k responseBytes tables expiresAt =>
    simp only [EdgeState.step] at hstep
    split at hstep
    · rename_i version epoch hread
      cases hstep
      exact h.store hread k rfl
    · cases hstep
  | event ev =>
    obtain ⟨hidle, heq⟩ := Option.ite_none_right_eq_some.mp hstep
    cases heq
    exact h.event hidle ev
  | advance => exact h.advance hstep
  | get k now =>
    cases hstep
    obtain ⟨hcovered, -, hpeek, -⟩ := EdgeCache.get_spec h.covered k now
    obtain ⟨hcount, hobserved⟩ := EdgeCache.get_counters s.cache k now
    exact h.cache hcovered hcount hobserved hpeek
  | setMaxEntryBytes n =>
    cases hstep
    exact h.cache h.covered rfl rfl fun _ _ he => he

theorem inv_start (capacity maxEntryBytes maxTotalBytes : Nat) :
    (start capacity maxEntryBytes maxTotalBytes : EdgeState K).Inv where
  covered := MapState.covered_empty
  stamped := .inr fun _ _ he => by cases he
  ready _ _ hmem := absurd hmem List.not_mem_nil

end EdgeState

/-- Every entry is stamped no higher than the last home version seen, and a later event
about its tables drops it.  While a restart of the home is being applied, between the
reset of the version seen and the flush, the entries of the old clock are still there. -/
theorem edge_entries_stamped (capacity maxEntryBytes maxTotalBytes : Nat)
    (steps : List (EdgeStep K)) {s : EdgeState K}
    (hcurrent : Runs.Along EdgeState.step EdgeState.StampCurrent
      (.start capacity maxEntryBytes maxTotalBytes) steps)
    (hran : Runs.run EdgeState.step (.start capacity maxEntryBytes maxTotalBytes) steps = some s)
    (hsettled : s.applier.resetting = false) (k : K) (e : CacheEntry)
    (hstored : s.cache.map.peek k = some e) :
    e.version ≤ s.cache.observedHome ∧
      ∀ version tables, s.cache.observedHome < version →
        (tables = [] ∨ ∃ t ∈ tables, t ∈ e.tables) →
        (s.cache.invalidate version tables).map.peek k = none := by
  have hinv : s.Inv := Runs.run_invariant_along (fun _ _ _ h hc hstep => h.step hc hstep)
    (EdgeState.inv_start capacity maxEntryBytes maxTotalBytes) hcurrent hran
  have hle := hinv.stamped_of hsettled k e hstored
  refine ⟨hle, fun version tables hlater htables => ?_⟩
  rw [EdgeCache.invalidate_eq, EdgeCache.peek_sweep]
  exact if_pos (hinv.covered.mem_dropKeys hstored (hle.trans (Nat.le_of_lt hlater)) htables)

def applied (ev : HomeEvent) (n : Nat) : List (EdgeStep Nat) :=
  .event ev :: List.replicate n .advance

/-- A read takes its stamp, the home restarts, and the read takes the number of
invalidations. -/
def stampBeforeRestart : List (EdgeStep Nat) :=
  applied ⟨1, 100, []⟩ 4 ++ [.read] ++ applied ⟨2, 3, []⟩ 7 ++
    [.loadEpoch 0, .store 0 0 [] ["t"] 9] ++ applied ⟨2, 4, ["t"]⟩ 4

def stampAfterRestart : List (EdgeStep Nat) :=
  applied ⟨1, 100, []⟩ 4 ++ [.read, .loadEpoch 0] ++ applied ⟨2, 3, []⟩ 7 ++
    [.store 0 0 [] ["t"] 9, .read, .loadEpoch 1, .store 1 1 [] ["t"] 9]

theorem edge_entries_stamped_restart :
    ∃ s : EdgeState Nat, Runs.run EdgeState.step (.start 4 10 1000) stampAfterRestart = some s ∧
      s.cache.map.lru = [(1, ⟨3, [], ["t"], 9⟩)] ∧ 3 ≤ s.cache.observedHome :=
  ⟨_, rfl, by rfl, (edge_entries_stamped 4 10 1000 stampAfterRestart (by decide) rfl rfl 1
    ⟨3, [], ["t"], 9⟩ (by rfl)).1⟩

/-- The entry has a stamp of the old clock, and the next event does not drop it. -/
theorem not_edge_entries_stamped :
    ∃ s : EdgeState Nat, Runs.run EdgeState.step (.start 4 10 1000) stampBeforeRestart = some s ∧
      s.applier = .idle ∧ s.cache.observedHome = 4 ∧
      s.cache.map.peek 0 = some ⟨100, [], ["t"], 9⟩ ∧
      ¬ ∀ k e, s.cache.map.peek k = some e → e.version ≤ s.cache.observedHome := by
  refine ⟨_, rfl, rfl, rfl, rfl, fun hall => ?_⟩
  exact absurd (hall 0 ⟨100, [], ["t"], 9⟩ rfl) (by decide)

end HeliosProxy.Edge
