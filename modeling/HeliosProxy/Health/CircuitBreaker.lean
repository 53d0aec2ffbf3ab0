import HeliosProxy.Lib.Runs
import HeliosProxy.Text.Chars

/-!
# The circuit breaker and the data path

`CircuitBreaker::allow_request` half-opens an open circuit when its cooldown is over.
The data path asks `get_state` instead, which changes nothing: once open, a circuit
stays open for it.  A circuit of the data path recovers in every run exactly if it
cannot open at all (`recovers_iff`): the window counter keeps no more than 1000 failures,
so that a threshold above that is never reached.
-/

namespace HeliosProxy.Health

open Text Runs Function

/-! ## Counting failures -/

structure SlidingWindowCounter where
  /-- The oldest first. -/
  events : List Nat
  window : Nat
  maxEvents : Option Nat
deriving DecidableEq

namespace SlidingWindowCounter

def new (window : Nat) : SlidingWindowCounter := ⟨[], window, some 1000⟩

/-- Drops the events from before the window, unless the clock has not run for one. -/
def pruned (c : SlidingWindowCounter) (now : Nat) : List Nat :=
  if c.window ≤ now then c.events.dropWhile (· < now - c.window) else c.events

/-- `increment`: the counter with an event more, and its count. -/
def increment (c : SlidingWindowCounter) (now : Nat) : SlidingWindowCounter × Nat :=
  let events := c.pruned now ++ [now]
  let events := match c.maxEvents with
    | some max => events.drop (events.length - max)
    | none => events
  ({ c with events }, events.length)

def count (c : SlidingWindowCounter) (now : Nat) : Nat := (c.pruned now).length

def reset (c : SlidingWindowCounter) : SlidingWindowCounter := { c with events := [] }

theorem increment_count_le (c : SlidingWindowCounter) (now : Nat) {max : Nat}
    (hmax : c.maxEvents = some max) : (c.increment now).2 ≤ max := by
  simp only [increment, hmax, List.length_drop]
  omega

@[simp] theorem increment_maxEvents (c : SlidingWindowCounter) (now : Nat) :
    (c.increment now).1.maxEvents = c.maxEvents := rfl

theorem increment_replicate {c : SlidingWindowCounter} {k now : Nat}
    (hevents : c.events = List.replicate k now) (hcap : ∀ max ∈ c.maxEvents, k < max) :
    (c.increment now).1.events = List.replicate (k + 1) now ∧ (c.increment now).2 = k + 1 := by
  have hpruned : c.pruned now = List.replicate k now := by
    rw [pruned, hevents]
    split
    · cases k with
      | zero => rfl
      | succ k => rw [List.replicate_succ, List.dropWhile_cons_of_neg (by simp)]
    · rfl
  have hpushed : c.pruned now ++ [now] = List.replicate (k + 1) now := by
    rw [hpruned, List.replicate_succ']
  cases hmax : c.maxEvents with
  | none => simp [increment, hmax, hpushed]
  | some max =>
    have hlt := hcap max hmax
    simp only [increment, hmax, hpushed, List.length_replicate, List.drop_replicate]
    have hkeep : k + 1 - (k + 1 - max) = k + 1 := by omega
    rw [hkeep]
    exact ⟨rfl, rfl⟩

end SlidingWindowCounter

/-! ## The breaker -/

inductive CircuitState
  | closed
  | opened
  | halfOpen
deriving DecidableEq

structure CircuitBreakerConfig where
  failureThreshold : Nat
  failureWindow : Nat
  cooldown : Nat
  halfOpenSuccessThreshold : Nat
  halfOpenMaxProbes : Nat
deriving DecidableEq

structure CircuitBreaker where
  state : CircuitState
  failureCounter : SlidingWindowCounter
  successCounter : Nat
  openedAt : Nat
  activeProbes : Nat
  lastError : Option Str
deriving DecidableEq

structure CircuitOpen where
  retryAfter : Nat
  failureCount : Nat
  lastError : Option Str
deriving DecidableEq

namespace CircuitBreaker

variable (cfg : CircuitBreakerConfig) (b : CircuitBreaker)

def new : CircuitBreaker := ⟨.closed, .new cfg.failureWindow, 0, 0, 0, none⟩

def shouldTryHalfOpen (now : Nat) : Bool := cfg.cooldown ≤ now - b.openedAt

def timeUntilHalfOpen (now : Nat) : Nat := cfg.cooldown - (now - b.openedAt)

def canProbe : Bool := b.activeProbes < cfg.halfOpenMaxProbes

def transitionToOpen (now : Nat) : CircuitBreaker :=
  if b.state = .opened then b else { b with state := .opened, openedAt := now }

def transitionToHalfOpen : CircuitBreaker := { b with state := .halfOpen, successCounter := 0 }

def transitionToClosed : CircuitBreaker :=
  { b with state := .closed, failureCounter := b.failureCounter.reset }

/-- `record_success_internal`. -/
def recordSuccess : CircuitBreaker :=
  match b.state with
  | .closed | .opened => b
  | .halfOpen =>
    let b := { b with successCounter := b.successCounter + 1 }
    if cfg.halfOpenSuccessThreshold ≤ b.successCounter then b.transitionToClosed else b

/-- `record_failure_internal`. -/
def recordFailure (now : Nat) (error : Str) : CircuitBreaker :=
  let b := { b with lastError := some error }
  match b.state with
  | .closed =>
    let (failureCounter, count) := b.failureCounter.increment now
    let b := { b with failureCounter }
    if cfg.failureThreshold ≤ count then b.transitionToOpen now else b
  | .halfOpen => b.transitionToOpen now
  | .opened => { b with openedAt := now }

def probeRetry : Nat := 100000000

/-- `allow_request`: whether the request let through is a probe. -/
def allowRequest (now : Nat) : CircuitBreaker × Except CircuitOpen Bool :=
  match b.state with
  | .closed => (b, .ok false)
  | .opened =>
    if b.shouldTryHalfOpen cfg now then
      let b := b.transitionToHalfOpen
      ({ b with activeProbes := b.activeProbes + 1 }, .ok true)
    else
      (b, .error ⟨b.timeUntilHalfOpen cfg now, b.failureCounter.count now,
        some (b.lastError.getD [])⟩)
  | .halfOpen =>
    if b.canProbe cfg then ({ b with activeProbes := b.activeProbes + 1 }, .ok true)
    else (b, .error ⟨probeRetry, b.failureCounter.count now, none⟩)

@[simp] theorem recordFailure_maxEvents (now : Nat) (error : Str) :
    (b.recordFailure cfg now error).failureCounter.maxEvents = b.failureCounter.maxEvents := by
  simp only [recordFailure, transitionToOpen]
  split
  · split
    · split <;> rfl
    · rfl
  · split <;> rfl
  · rfl

variable {cfg b}

theorem recordFailure_closed {now : Nat} {error : Str} (h : b.state = .closed) :
    (b.recordFailure cfg now error).state =
      if cfg.failureThreshold ≤ (b.failureCounter.increment now).2 then .opened else .closed := by
  simp only [recordFailure, h, transitionToOpen]
  split <;> simp

theorem iterate_recordSuccess_closed (h : b.state = .halfOpen) (n : Nat)
    (hn : cfg.halfOpenSuccessThreshold ≤ b.successCounter + (n + 1)) :
    ((·.recordSuccess cfg)^[n + 1] b).state = .closed := by
  have hclosed : ∀ (c : CircuitBreaker) (m : Nat), c.state = .closed →
      ((·.recordSuccess cfg)^[m] c).state = .closed := by
    intro c m hc
    induction m with
    | zero => exact hc
    | succ m ih =>
      have hstep : c.recordSuccess cfg = c := by rw [recordSuccess, hc]
      rw [iterate_succ_apply, hstep]
      exact ih
  induction n generalizing b with
  | zero =>
    simp only [iterate_succ_apply, recordSuccess, h]
    rw [if_pos hn]
    rfl
  | succ n ih =>
    rw [iterate_succ_apply]
    by_cases hdone : cfg.halfOpenSuccessThreshold ≤ b.successCounter + 1
    · refine hclosed _ _ ?_
      simp only [recordSuccess, h]
      rw [if_pos hdone]
      rfl
    · have hnext : b.recordSuccess cfg = { b with successCounter := b.successCounter + 1 } := by
        simp only [recordSuccess, h]
        rw [if_neg hdone]
      rw [hnext]
      exact ih h (by simp only; omega)

/-- A caller of `allow_request` gets a probe through once the cooldown is over, and the
circuit closes if it and enough others succeed. -/
theorem allowRequest_recovers {now : Nat} (h : b.state = .opened)
    (helapsed : b.shouldTryHalfOpen cfg now) :
    (b.allowRequest cfg now).2 = .ok true ∧ ∀ n, cfg.halfOpenSuccessThreshold ≤ n + 1 →
      ((·.recordSuccess cfg)^[n + 1] (b.allowRequest cfg now).1).state = .closed := by
  simp only [allowRequest, h, helapsed, if_true, transitionToHalfOpen, true_and]
  exact fun n hn => iterate_recordSuccess_closed rfl n (by simpa using hn)

theorem allowRequest_recovers_once : ((·.recordSuccess ⟨1, 30, 10, 1, 2⟩)^[1]
    (allowRequest ⟨1, 30, 10, 1, 2⟩ ⟨.opened, .new 30, 0, 0, 0, none⟩ 10).1).state = .closed :=
  (allowRequest_recovers rfl rfl).2 0 le_rfl

end CircuitBreaker

/-! ## The data path -/

/-- `circuit_is_open`, and the check of `GatewayPolicy::check_node`. -/
def circuitIsOpen (b : CircuitBreaker) : Bool := b.state == .opened

/-- A node as the data path sees it: its breaker and the requests let through that have
not been recorded yet. -/
structure Node where
  breaker : CircuitBreaker
  inFlight : Nat
  clock : Nat

def Node.fresh (cfg : CircuitBreakerConfig) : Node := ⟨.new cfg, 0, 0⟩

inductive DataPathEvent
  /-- A request asks whether the circuit is open. -/
  | query (now : Nat)
  | success
  | failure (now : Nat) (error : Str)
deriving DecidableEq

/-- One event: the clock does not go back, and only a request that was let through is
recorded. -/
def Node.step (cfg : CircuitBreakerConfig) (n : Node) : DataPathEvent → Option Node
  | .query now =>
    if now < n.clock then none
    else some { n with
      clock := now
      inFlight := if circuitIsOpen n.breaker then n.inFlight else n.inFlight + 1 }
  | .success =>
    if n.inFlight = 0 then none
    else some { n with breaker := n.breaker.recordSuccess cfg, inFlight := n.inFlight - 1 }
  | .failure now error =>
    if n.inFlight = 0 ∨ now < n.clock then none
    else some ⟨n.breaker.recordFailure cfg now error, n.inFlight - 1, now⟩

def DataPathEvent.isFailure : DataPathEvent → Bool
  | .failure .. => true
  | _ => false

/-- The query at `now` lets its request through, and the circuit is closed after finitely
many successes and no failure. -/
def LetsThrough (cfg : CircuitBreakerConfig) (n : Node) (now : Nat) : Prop :=
  circuitIsOpen n.breaker = false ∧
    ∃ k, ∀ es n', run (Node.step cfg) n (.query now :: es) = some n' →
      (∀ e ∈ es, e.isFailure = false) → k ≤ es.count .success → n'.breaker.state = .closed

/-- In every state of the run, a query of an open circuit whose cooldown is over lets
its request through. -/
def Recovers (cfg : CircuitBreakerConfig) (n : Node) (es : List DataPathEvent) : Prop :=
  Along (Node.step cfg) (fun n e => ∀ now, e = .query now → n.breaker.state = .opened →
    n.breaker.shouldTryHalfOpen cfg now = true → LetsThrough cfg n now) n es

section DataPath

variable {cfg : CircuitBreakerConfig}

theorem step_breaker {n n' : Node} {e : DataPathEvent} (h : n.step cfg e = some n') :
    n'.breaker = n.breaker ∨ n'.breaker = n.breaker.recordSuccess cfg ∨
      ∃ now error, n'.breaker = n.breaker.recordFailure cfg now error := by
  cases e with
  | query now =>
    obtain ⟨-, ⟨⟩⟩ := Option.ite_none_left_eq_some.mp h
    exact .inl rfl
  | success =>
    obtain ⟨-, ⟨⟩⟩ := Option.ite_none_left_eq_some.mp h
    exact .inr (.inl rfl)
  | failure now error =>
    obtain ⟨-, ⟨⟩⟩ := Option.ite_none_left_eq_some.mp h
    exact .inr (.inr ⟨now, error, rfl⟩)

def Unopened (n : Node) : Prop :=
  n.breaker.state = .closed ∧ n.breaker.failureCounter.maxEvents = some 1000

theorem unopened_step (hcfg : 1000 < cfg.failureThreshold) (n : Node)
    (e : DataPathEvent) (n' : Node)
    (h : Unopened n) (hstep : n.step cfg e = some n') : Unopened n' := by
  obtain ⟨hclosed, hmax⟩ := h
  rw [Unopened]
  rcases step_breaker hstep with heq | heq | ⟨now, error, heq⟩
  · rw [heq]
    exact ⟨hclosed, hmax⟩
  · have hsame : n.breaker.recordSuccess cfg = n.breaker := by
      rw [CircuitBreaker.recordSuccess, hclosed]
    rw [heq, hsame]
    exact ⟨hclosed, hmax⟩
  · have hcount := n.breaker.failureCounter.increment_count_le now hmax
    rw [heq, CircuitBreaker.recordFailure_closed hclosed, if_neg (by omega),
      CircuitBreaker.recordFailure_maxEvents]
    exact ⟨rfl, hmax⟩

theorem run_queries (j k : Nat) : run (Node.step cfg) ⟨.new cfg, j, 0⟩
    (List.replicate k (.query 0)) = some ⟨.new cfg, k + j, 0⟩ := by
  induction k generalizing j with
  | zero => rw [Nat.zero_add]; rfl
  | succ k ih =>
    have hstep : Node.step cfg ⟨.new cfg, j, 0⟩ (.query 0) = some ⟨.new cfg, j + 1, 0⟩ := rfl
    rw [List.replicate_succ, run_cons, hstep, Option.bind_some, ih (j + 1),
      Nat.succ_add_eq_add_succ]

theorem run_failures (cfg : CircuitBreakerConfig) {n : Node} {k m : Nat}
    (hclosed : n.breaker.state = .closed)
    (hclock : n.clock = 0) (hflight : n.inFlight = m + 1)
    (hevents : n.breaker.failureCounter.events = List.replicate k 0)
    (hmax : n.breaker.failureCounter.maxEvents = some 1000) (hcap : k + m + 1 ≤ 1000)
    (hthreshold : max 1 cfg.failureThreshold = k + m + 1) :
    ∃ n', run (Node.step cfg) n (List.replicate (m + 1) (.failure 0 [])) = some n' ∧
      n'.breaker.state = .opened ∧ n'.breaker.openedAt = 0 := by
  induction m generalizing n k with
  | zero =>
    have hcount := (SlidingWindowCounter.increment_replicate hevents
      (by rw [hmax]; intro max hmem; cases hmem; omega)).2
    have hreached : cfg.failureThreshold ≤ (n.breaker.failureCounter.increment 0).2 := by omega
    have hstep : n.step cfg (.failure 0 []) = some ⟨n.breaker.recordFailure cfg 0 [], 0, 0⟩ := by
      simp [Node.step, hflight, hclock]
    refine ⟨_, run_cons_eq_some.mpr ⟨_, hstep, rfl⟩, ?_, ?_⟩
    · rw [CircuitBreaker.recordFailure_closed hclosed, if_pos hreached]
    · simp only [CircuitBreaker.recordFailure, hclosed, CircuitBreaker.transitionToOpen]
      rw [if_pos hreached]
      simp
  | succ m ih =>
    obtain ⟨hinc, hcount⟩ := SlidingWindowCounter.increment_replicate hevents
      (by rw [hmax]; intro max hmem; cases hmem; omega)
    have hbelow : ¬ cfg.failureThreshold ≤ (n.breaker.failureCounter.increment 0).2 := by omega
    have hstep : n.step cfg (.failure 0 []) =
        some ⟨n.breaker.recordFailure cfg 0 [], m + 1, 0⟩ := by
      simp [Node.step, hflight, hclock]
    have hcounter : (n.breaker.recordFailure cfg 0 []).failureCounter =
        (n.breaker.failureCounter.increment 0).1 := by
      simp only [CircuitBreaker.recordFailure, hclosed]
      rw [if_neg hbelow]
    rw [List.replicate_succ, run_cons, hstep, Option.bind_some]
    refine ih (k := k + 1) ?_ rfl rfl ?_ ?_ (by omega) (by omega)
    · rw [CircuitBreaker.recordFailure_closed hclosed, if_neg hbelow]
    · rw [hcounter, hinc]
    · rw [hcounter, SlidingWindowCounter.increment_maxEvents, hmax]

/-- The circuit recovers in every run exactly if it never opens. -/
theorem recovers_iff (cfg : CircuitBreakerConfig) :
    (∀ es, Recovers cfg (.fresh cfg) es) ↔ 1000 < cfg.failureThreshold := by
  constructor
  · intro h
    by_contra hle
    obtain ⟨m, hm⟩ := Nat.exists_eq_succ_of_ne_zero (show max 1 cfg.failureThreshold ≠ 0 by omega)
    have hfailures := run_failures cfg (n := ⟨.new cfg, m + 1, 0⟩) (k := 0) rfl rfl rfl rfl rfl
      (by omega) (by omega)
    obtain ⟨n, hrun, hopen, hopened⟩ := hfailures
    have hqueries : run (Node.step cfg) (.fresh cfg) (List.replicate (m + 1) (.query 0)) =
        some ⟨.new cfg, m + 1, 0⟩ := run_queries 0 (m + 1)
    have hrecovers := h (List.replicate (m + 1) (.query 0) ++
      (List.replicate (m + 1) (.failure 0 []) ++ [.query cfg.cooldown]))
    have hquery := along_append_right (along_append_right hrecovers hqueries) hrun
    have helapsed : n.breaker.shouldTryHalfOpen cfg cfg.cooldown = true := by
      simp [CircuitBreaker.shouldTryHalfOpen, hopened]
    have hthrough := (hquery.1 cfg.cooldown rfl hopen helapsed).1
    simp [circuitIsOpen, hopen] at hthrough
  · intro hcfg es
    refine along_of_invariant (unopened_step hcfg) ?_ ⟨rfl, rfl⟩ es
    rintro n e ⟨hclosed, -⟩ now - hopen
    rw [hclosed] at hopen
    cases hopen

/-- One failure opens the circuit; an hour after its cooldown it is still open. -/
theorem not_recovers :
    ¬ Recovers ⟨1, 30, 10, 3, 2⟩ (.fresh ⟨1, 30, 10, 3, 2⟩)
      [.query 0, .failure 1 "connection refused", .query 3600] := by
  rintro ⟨-, h⟩
  obtain ⟨-, h⟩ := h _ rfl
  obtain ⟨hquery, -⟩ := h _ rfl
  have hthrough := (hquery 3600 rfl (by decide) (by decide)).1
  revert hthrough
  decide

end DataPath

end HeliosProxy.Health
