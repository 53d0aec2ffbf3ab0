import HeliosProxy.Edge.Index
import HeliosProxy.Lib.Runs

/-!
# Invalidations of the home are final

On the home a read takes a version before it goes to the backend and stores its answer
under that version afterwards, while writes invalidate up to versions of the same
counter.  The high-water mark is raised in front of the map lock and read again under
it: a store that comes before the sweep is swept, and one that comes after it is
refused.
-/

namespace HeliosProxy.Edge

open Text (Str)

variable {K : Type} [DecidableEq K]

/-- Where a call is.  The steps of `invalidate` in front of its lock are apart. -/
inductive HomeTask
  | reading (version : Nat)
  | invalidating (version : Nat) (tables : List Str)
  | counted (version : Nat) (tables : List Str)
  | raised (version : Nat) (tables : List Str)
  | done
deriving DecidableEq

structure HomeState (K : Type) where
  cache : EdgeCache K
  tasks : List HomeTask
  /-- The invalidations that have returned. -/
  returned : List (Nat × List Str)

inductive HomeStep (K : Type)
  /-- A read that missed takes a version. -/
  | read
  /-- The `i`-th call stores what it has read. -/
  | store (i : Nat) (k : K) (responseBytes : List UInt8) (tables : List Str) (expiresAt : Nat)
  | invalidate (tables : List Str)
  | count (i : Nat)
  | raise (i : Nat)
  | sweep (i : Nat)
  | get (k : K) (now : Nat)
  | setMaxEntryBytes (n : Nat)

namespace HomeState

/-- `with_budget`. -/
def start (capacity maxEntryBytes maxTotalBytes : Nat) : HomeState K :=
  ⟨⟨.empty, capacity, maxEntryBytes, maxTotalBytes, 1, 0, 0, 0⟩, [], []⟩

/-- `next_version`, for a new call. -/
def mint (s : HomeState K) (task : Nat → HomeTask) : HomeState K :=
  { s with
    cache := { s.cache with nextVersion := s.cache.nextVersion + 1 }
    tasks := s.tasks ++ [task s.cache.nextVersion] }

def setTask (s : HomeState K) (i : Nat) (task : HomeTask) : HomeState K :=
  { s with tasks := s.tasks.set i task }

def step (s : HomeState K) : HomeStep K → Option (HomeState K)
  | .read => some (s.mint .reading)
  | .invalidate tables => some (s.mint (.invalidating · tables))
  | .store i k responseBytes tables expiresAt =>
    match s.tasks[i]? with
    | some (.reading version) =>
      some { s.setTask i .done with
        cache := s.cache.insertIfFresh k ⟨version, responseBytes, tables, expiresAt⟩ }
    | _ => none
  | .count i =>
    match s.tasks[i]? with
    | some (.invalidating version tables) =>
      some { s.setTask i (.counted version tables) with cache := s.cache.countInvalidation }
    | _ => none
  | .raise i =>
    match s.tasks[i]? with
    | some (.counted version tables) =>
      some { s.setTask i (.raised version tables) with cache := s.cache.raiseHwm version }
    | _ => none
  | .sweep i =>
    match s.tasks[i]? with
    | some (.raised version tables) =>
      some { s.setTask i .done with
        cache := s.cache.sweep version tables
        returned := (version, tables) :: s.returned }
    | _ => none
  | .get k now => some { s with cache := (s.cache.get k now).2 }
  | .setMaxEntryBytes n => some { s with cache := { s.cache with maxEntryBytes := n } }

end HomeState

/-! ## What no entry is -/

def CacheEntry.Hit (e : CacheEntry) (version : Nat) (tables : List Str) : Prop :=
  e.version ≤ version ∧ (tables = [] ∨ ∃ t ∈ tables, t ∈ e.tables)

/-- An invalidation that has returned: the mark is no lower, and no entry is left that
it is about. -/
def EdgeCache.Final (c : EdgeCache K) (p : Nat × List Str) : Prop :=
  p.1 ≤ c.invalidatedHwm ∧ ∀ k e, c.map.peek k = some e → ¬ e.Hit p.1 p.2

structure HomeState.Inv (s : HomeState K) : Prop where
  covered : s.cache.map.Covered
  raised : ∀ v ts, .raised v ts ∈ s.tasks → v ≤ s.cache.invalidatedHwm
  final : ∀ p ∈ s.returned, s.cache.Final p

namespace EdgeCache

theorem Final.of_peek {c c' : EdgeCache K} {p : Nat × List Str} (h : c.Final p)
    (hhwm : c.invalidatedHwm ≤ c'.invalidatedHwm)
    (hpeek : ∀ k e, c'.map.peek k = some e → c.map.peek k = some e ∨ c.invalidatedHwm < e.version) :
    c'.Final p := by
  refine ⟨h.1.trans hhwm, fun k e he hhit => ?_⟩
  rcases hpeek k e he with hh | hnew
  · exact h.2 k e hh hhit
  · exact absurd (hhit.1.trans h.1) (Nat.not_le.mpr hnew)

theorem insertLocked_invalidatedHwm (c : EdgeCache K) (k : K) (e : CacheEntry) :
    (c.insertLocked k e).invalidatedHwm = c.invalidatedHwm := by
  unfold insertLocked
  split <;> rfl

theorem insertIfFresh_spec {c : EdgeCache K} (h : c.map.Covered) (k : K) (e : CacheEntry) :
    (c.insertIfFresh k e).map.Covered ∧ (c.insertIfFresh k e).invalidatedHwm = c.invalidatedHwm ∧
      ∀ k' e', (c.insertIfFresh k e).map.peek k' = some e' →
        c.map.peek k' = some e' ∨ c.invalidatedHwm < e'.version := by
  unfold insertIfFresh
  split
  · exact ⟨h, rfl, fun k' e' he' => .inl he'⟩
  · rename_i hfresh
    obtain ⟨hcovered, hpeek⟩ := insertLocked_covered h k e
    refine ⟨hcovered, insertLocked_invalidatedHwm c k e, fun k' e' he' => ?_⟩
    rcases hpeek k' e' he' with hh | ⟨-, rfl⟩
    · exact .inl hh
    · exact .inr (Nat.lt_of_not_le fun hle => hfresh (.inr hle))

theorem get_spec {c : EdgeCache K} (h : c.map.Covered) (k : K) (now : Nat) :
    (c.get k now).2.map.Covered ∧ (c.get k now).2.invalidatedHwm = c.invalidatedHwm ∧
      (∀ k' e', (c.get k now).2.map.peek k' = some e' → c.map.peek k' = some e') ∧
      ∀ e, (c.get k now).1 = some e → c.map.peek k = some e := by
  unfold get
  cases hk : c.map.peek k with
  | none => exact ⟨h, rfl, fun _ _ he => he, fun _ he => by cases he⟩
  | some e =>
    simp only
    split
    · exact ⟨h.promote hk, rfl, fun k' e' he' => MapState.peek_promote hk k' ▸ he', fun _ he => he⟩
    · refine ⟨h.pop k, rfl, fun k' e' he' => ?_, fun _ he => by cases he⟩
      rw [MapState.peek_pop] at he'
      split at he'
      · cases he'
      · exact he'

theorem peek_sweep (c : EdgeCache K) (version : Nat) (tables : List Str) (k : K) :
    (c.sweep version tables).map.peek k =
      if k ∈ c.map.dropKeys version tables then none else c.map.peek k :=
  MapState.peek_foldl_pop _ _ _

theorem final_sweep {c : EdgeCache K} (h : c.map.Covered) {version : Nat}
    (hhwm : version ≤ c.invalidatedHwm)
    (tables : List Str) : (c.sweep version tables).Final (version, tables) := by
  refine ⟨hhwm, fun k e he hhit => ?_⟩
  rw [peek_sweep] at he
  split at he
  · cases he
  · rename_i hkept
    exact hkept (h.mem_dropKeys he hhit.1 hhit.2)

end EdgeCache

namespace HomeState

theorem Inv.move {s s' : HomeState K} (h : s.Inv) (hcovered : s'.cache.map.Covered)
    (hhwm : s.cache.invalidatedHwm ≤ s'.cache.invalidatedHwm)
    (hpeek : ∀ k e, s'.cache.map.peek k = some e →
      s.cache.map.peek k = some e ∨ s.cache.invalidatedHwm < e.version)
    (htasks : ∀ v ts, .raised v ts ∈ s'.tasks → .raised v ts ∈ s.tasks ∨
      v ≤ s'.cache.invalidatedHwm)
    (hreturned : ∀ p ∈ s'.returned, p ∈ s.returned ∨ s'.cache.Final p) : s'.Inv where
  covered := hcovered
  raised v ts hmem := (htasks v ts hmem).elim (fun hh => (h.raised v ts hh).trans hhwm) id
  final p hp := (hreturned p hp).elim (fun hh => (h.final p hh).of_peek hhwm hpeek) id

theorem raised_set {tasks : List HomeTask} {i : Nat} {task : HomeTask} {v : Nat} {ts : List Str}
    (h : .raised v ts ∈ tasks.set i task) : .raised v ts ∈ tasks ∨ .raised v ts = task :=
  List.mem_or_eq_of_mem_set h

theorem Inv.mint {s : HomeState K} (h : s.Inv) {task : Nat → HomeTask}
    (htask : ∀ n v ts, .raised v ts ≠ task n) : (s.mint task).Inv := by
  refine h.move h.covered (le_refl _) (fun k e he => .inl he) (fun v ts hmem => ?_) fun p hp =>
    .inl hp
  rcases List.mem_append.mp hmem with hmem | hmem
  · exact .inl hmem
  · exact absurd (List.mem_singleton.mp hmem) (htask _ v ts)

theorem Inv.step {s s' : HomeState K} (h : s.Inv) {a : HomeStep K} (hstep : s.step a = some s') :
    s'.Inv := by
  cases a with
  | read | invalidate tables =>
    cases hstep
    exact h.mint fun n v ts => by rintro ⟨⟩
  | store i k responseBytes tables expiresAt =>
    simp only [HomeState.step] at hstep
    split at hstep
    · cases hstep
      obtain ⟨hcovered, hhwm, hpeek⟩ :=
        EdgeCache.insertIfFresh_spec h.covered k ⟨_, responseBytes, tables, expiresAt⟩
      refine h.move hcovered hhwm.ge hpeek (fun v ts hmem => ?_) fun p hp => .inl hp
      exact .inl ((raised_set hmem).resolve_right (by rintro ⟨⟩))
    · cases hstep
  | count i =>
    simp only [HomeState.step] at hstep
    split at hstep
    · cases hstep
      refine h.move h.covered (le_refl _) (fun k e he => .inl he) (fun v ts hmem => ?_) fun p hp =>
        .inl hp
      exact .inl ((raised_set hmem).resolve_right (by rintro ⟨⟩))
    · cases hstep
  | raise i =>
    simp only [HomeState.step] at hstep
    split at hstep
    · cases hstep
      refine h.move h.covered (le_max_left _ _) (fun k e he => .inl he)
        (fun v ts hmem => ?_) fun p hp => .inl hp
      refine (raised_set hmem).imp id fun htask => ?_
      cases htask
      exact le_max_right _ _
    · cases hstep
  | sweep i =>
    simp only [HomeState.step] at hstep
    split at hstep
    · rename_i version tables htask
      cases hstep
      have hhwm : version ≤ s.cache.invalidatedHwm :=
        h.raised version tables (List.mem_of_getElem? htask)
      refine h.move (h.covered.foldl_pop _) (le_refl _) (fun k e he => ?_)
        (fun v ts hmem => ?_) fun p hp => ?_
      · rw [EdgeCache.peek_sweep] at he
        split at he
        · cases he
        · exact .inl he
      · exact .inl ((raised_set hmem).resolve_right (by rintro ⟨⟩))
      · rcases List.mem_cons.mp hp with rfl | hp
        · exact .inr (EdgeCache.final_sweep h.covered hhwm tables)
        · exact .inl hp
    · cases hstep
  | get k now =>
    cases hstep
    obtain ⟨hcovered, hhwm, hpeek, -⟩ := EdgeCache.get_spec h.covered k now
    exact h.move hcovered hhwm.ge (fun k e he => .inl (hpeek k e he))
      (fun v ts hmem => .inl hmem) fun p hp => .inl hp
  | setMaxEntryBytes n =>
    cases hstep
    exact h.move h.covered (le_refl _) (fun k e he => .inl he)
      (fun v ts hmem => .inl hmem) fun p hp => .inl hp

theorem inv_start (capacity maxEntryBytes maxTotalBytes : Nat) :
    (start capacity maxEntryBytes maxTotalBytes : HomeState K).Inv where
  covered := MapState.covered_empty
  raised _ _ hmem := absurd hmem List.not_mem_nil
  final _ hp := absurd hp List.not_mem_nil

end HomeState

/-- Once an invalidation has returned, no read of the cache gets an entry it is about,
whatever was stored, read and evicted in between. -/
theorem home_invalidation_final (capacity maxEntryBytes maxTotalBytes : Nat)
    (steps : List (HomeStep K))
    {s : HomeState K}
    (hran : Runs.run HomeState.step (.start capacity maxEntryBytes maxTotalBytes) steps = some s)
    {version : Nat} {tables : List Str} (hreturned : (version, tables) ∈ s.returned) (k : K)
    (now : Nat) :
    ∀ e ∈ (s.cache.get k now).1, ¬ e.Hit version tables := by
  have hinv : s.Inv := Runs.run_invariant (fun _ _ _ h hstep => h.step hstep)
    (HomeState.inv_start capacity maxEntryBytes maxTotalBytes) hran
  intro e he
  exact (hinv.final _ hreturned).2 k e ((EdgeCache.get_spec hinv.covered k now).2.2.2 e he)

/-- A read is overtaken by a write of its table: the first store comes before the sweep,
the second after it, and a read that begins later is kept. -/
def overtakenReads : List (HomeStep Nat) :=
  [.read, .read, .invalidate ["t"], .store 0 0 [] ["t"] 9, .count 2, .raise 2, .sweep 2,
    .store 1 1 [] ["t"] 9, .read, .store 3 2 [] ["t"] 9]

theorem home_invalidation_final_overtaken :
    ∃ s : HomeState Nat, Runs.run HomeState.step (.start 4 10 1000) overtakenReads = some s ∧
      s.returned = [(3, ["t".toList])] ∧ s.cache.map.lru.map Prod.fst = [2] ∧
      ∀ e ∈ (s.cache.get 2 0).1, ¬ e.Hit 3 ["t"] :=
  ⟨_, rfl, rfl, rfl, home_invalidation_final 4 10 1000 overtakenReads rfl List.mem_cons_self 2 0⟩

end HeliosProxy.Edge
