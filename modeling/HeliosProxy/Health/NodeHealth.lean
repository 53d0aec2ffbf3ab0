import HeliosProxy.Text.Chars

/-!
# Health of a node

Two writers mark a node unhealthy: the probe sweep, through `advance_health`, and a
request that fails in-band.  Only the first clears the count of successful probes, so
that a node demoted in-band brings the successes from before its demotion with it
(`demotion_proves_iff`).
-/

namespace HeliosProxy.Health

open Text

/-- `u32::saturating_add(1)`. -/
def saturatingSucc (n : Nat) : Nat := min (n + 1) (2 ^ 32 - 1)

structure NodeHealth where
  healthy : Bool
  successCount : Nat
  failureCount : Nat
  lastError : Option Str
deriving DecidableEq

structure HealthConfig where
  failureThreshold : Nat
  successThreshold : Nat
  bounded : failureThreshold < 2 ^ 32 ∧ successThreshold < 2 ^ 32

def advanceHealth (healthy : Bool) (successCount failureCount : Nat) (ok : Bool)
    (failureThreshold successThreshold : Nat) : Bool × Nat × Nat :=
  if ok then
    let sc := saturatingSucc successCount
    (healthy || max successThreshold 1 ≤ sc, sc, 0)
  else
    let fc := saturatingSucc failureCount
    (if max failureThreshold 1 ≤ fc then false else healthy, 0, fc)

inductive HealthEvent
  /-- The node's part of a sweep: no error, or the probe's. -/
  | probe (error : Option Str)
  /-- A request failed in-band; `fault` is what `is_backend_fault` says of its error. -/
  | inBand (fault : Bool) (error : Str)
deriving DecidableEq

def HealthEvent.isSuccess : HealthEvent → Bool
  | .probe none => true
  | _ => false

def HealthEvent.isProbe : HealthEvent → Bool
  | .probe _ => true
  | .inBand .. => false

namespace NodeHealth

variable (cfg : HealthConfig)

/-- The node's part of `check_all_nodes`. -/
def probed (n : NodeHealth) (error : Option Str) : NodeHealth :=
  let (healthy, sc, fc) := advanceHealth n.healthy n.successCount n.failureCount error.isNone
    cfg.failureThreshold cfg.successThreshold
  ⟨healthy, sc, fc, error⟩

def noteBackendFailure (n : NodeHealth) (fault : Bool) (error : Str) : NodeHealth :=
  if fault && n.healthy then
    { n with
      healthy := false
      failureCount := saturatingSucc n.failureCount
      lastError := some ("in-band failure: " ++ error) }
  else n

def step (n : NodeHealth) : HealthEvent → NodeHealth
  | .probe error => n.probed cfg error
  | .inBand fault error => n.noteBackendFailure fault error

def run (n : NodeHealth) (es : List HealthEvent) : NodeHealth := es.foldl (step cfg) n

end NodeHealth

/-- How many of the probes at the end of `es` succeeded one after another. -/
def provenBy (es : List HealthEvent) : Nat :=
  ((es.filter HealthEvent.isProbe).reverse.takeWhile HealthEvent.isSuccess).length

/-- `d` marks the node unhealthy, it stays so through `mid`, and `r` marks it healthy
again. -/
structure Returns (cfg : HealthConfig) (n : NodeHealth) (d : HealthEvent) (mid : List HealthEvent)
    (r : HealthEvent) : Prop where
  before : n.healthy = true
  demoted : (n.step cfg d).healthy = false
  stays : ∀ k, ((n.step cfg d).run cfg (mid.take k)).healthy = false
  back : ((n.step cfg d).run cfg (mid ++ [r])).healthy = true

/-! ## Counting successes -/

theorem provenBy_success (es : List HealthEvent) :
    provenBy (es ++ [.probe none]) = provenBy es + 1 := by
  simp [provenBy, List.filter_cons, List.takeWhile_cons, HealthEvent.isProbe, HealthEvent.isSuccess]

theorem provenBy_failure (es : List HealthEvent) (error : Str) :
    provenBy (es ++ [.probe (some error)]) = 0 := by
  simp [provenBy, List.filter_cons, HealthEvent.isProbe, HealthEvent.isSuccess]

theorem provenBy_inBand (es : List HealthEvent) (fault : Bool) (error : Str) :
    provenBy (es ++ [.inBand fault error]) = provenBy es := by
  simp [provenBy, HealthEvent.isProbe]

theorem provenBy_replicate (m : Nat) : provenBy (List.replicate m (.probe none)) = m := by
  induction m with
  | zero => rfl
  | succ m ih => rw [List.replicate_succ', provenBy_success, ih]

namespace NodeHealth

variable {cfg : HealthConfig} {n : NodeHealth}

theorem run_append (n : NodeHealth) (es : List HealthEvent) (e : HealthEvent) :
    n.run cfg (es ++ [e]) = (n.run cfg es).step cfg e := by
  rw [run, List.foldl_append]
  rfl

theorem step_success_healthy (n : NodeHealth) :
    (n.step cfg (.probe none)).healthy =
      (n.healthy || decide (max cfg.successThreshold 1 ≤ saturatingSucc n.successCount)) := rfl

theorem step_success_successCount (n : NodeHealth) :
    (n.step cfg (.probe none)).successCount = saturatingSucc n.successCount := rfl

@[simp] theorem noteBackendFailure_successCount (fault : Bool) (error : Str) :
    (n.noteBackendFailure fault error).successCount = n.successCount := by
  rw [noteBackendFailure]
  split <;> rfl

theorem successCount_run_le (cfg : HealthConfig) (h : n.successCount = 0) (es : List HealthEvent) :
    (n.run cfg es).successCount ≤ provenBy es := by
  induction es using List.reverseRecOn with
  | nil => exact le_of_eq h
  | append_singleton es e ih =>
    rw [run_append]
    cases e with
    | probe error =>
      cases error with
      | none =>
        rw [provenBy_success]
        exact le_trans (min_le_left _ _) (Nat.succ_le_succ ih)
      | some error =>
        rw [provenBy_failure]
        exact le_refl _
    | inBand fault error =>
      rw [provenBy_inBand, step, noteBackendFailure_successCount]
      exact ih

theorem step_returns {r : HealthEvent} (h : n.healthy = false) (hback : (n.step cfg r).healthy) :
    r = .probe none ∧ max cfg.successThreshold 1 ≤ saturatingSucc n.successCount := by
  cases r with
  | probe error =>
    cases error with
    | none =>
      simpa [step_success_healthy, h] using hback
    | some error => simp [step, probed, advanceHealth, h] at hback
  | inBand fault error => simp [step, noteBackendFailure, h] at hback

/-- Successes of an unhealthy node below the threshold are counted and change nothing
else that matters. -/
theorem run_successes (h : n.healthy = false) (j : Nat)
    (hj : n.successCount + j < max cfg.successThreshold 1) :
    (n.run cfg (List.replicate j (.probe none))).healthy = false ∧
      (n.run cfg (List.replicate j (.probe none))).successCount = n.successCount + j := by
  induction j with
  | zero => exact ⟨h, rfl⟩
  | succ j ih =>
    obtain ⟨hhealthy, hcount⟩ := ih (by omega)
    have hbound := cfg.bounded.2
    have hsucc : saturatingSucc (n.successCount + j) = n.successCount + (j + 1) := by
      rw [saturatingSucc]
      omega
    rw [List.replicate_succ', run_append, step_success_healthy, step_success_successCount, hhealthy,
      hcount, hsucc, Bool.false_or, decide_eq_false_iff_not]
    exact ⟨by omega, rfl⟩

end NodeHealth

section Demotion

variable {cfg : HealthConfig} {n : NodeHealth} {d : HealthEvent}

theorem provenBy_of_returns {mid : List HealthEvent} {r : HealthEvent} (h : Returns cfg n d mid r)
    (hzero : (n.step cfg d).successCount = 0 ∨ cfg.successThreshold ≤ 1) :
    max 1 cfg.successThreshold ≤ provenBy (mid ++ [r]) := by
  have hmid : ((n.step cfg d).run cfg mid).healthy = false := by
    simpa using h.stays mid.length
  obtain ⟨rfl, henough⟩ := NodeHealth.step_returns hmid (NodeHealth.run_append _ _ _ ▸ h.back)
  rw [provenBy_success]
  rcases hzero with hzero | hone
  · have hle := NodeHealth.successCount_run_le cfg hzero mid
    rw [saturatingSucc] at henough
    omega
  · omega

theorem successCount_demoted (hbefore : n.healthy)
    (hdemoted : (n.step cfg d).healthy = false) :
    (n.step cfg d).successCount = if d.isProbe then 0 else n.successCount := by
  cases d with
  | probe error =>
    cases error with
    | none => simp [NodeHealth.step, NodeHealth.probed, advanceHealth, hbefore] at hdemoted
    | some error => rfl
  | inBand fault error => exact NodeHealth.noteBackendFailure_successCount fault error

theorem returns_after_missing (hbefore : n.healthy)
    (hdemoted : (n.step cfg d).healthy = false) (hthreshold : 1 < cfg.successThreshold) :
    Returns cfg n d
      (List.replicate (cfg.successThreshold - (n.step cfg d).successCount - 1) (.probe none))
      (.probe none) := by
  have hbound := cfg.bounded.2
  generalize hm : cfg.successThreshold - (n.step cfg d).successCount - 1 = m
  have hrun : ∀ j ≤ m, ((n.step cfg d).run cfg (List.replicate j (.probe none))).healthy = false ∧
      ((n.step cfg d).run cfg (List.replicate j (.probe none))).successCount =
        (n.step cfg d).successCount + j := by
    intro j hj
    cases j with
    | zero => exact ⟨hdemoted, rfl⟩
    | succ j => exact NodeHealth.run_successes hdemoted (j + 1) (by omega)
  refine ⟨hbefore, hdemoted, fun k => ?_, ?_⟩
  · rw [List.take_replicate]
    exact (hrun _ (min_le_right k m)).1
  · obtain ⟨hhealthy, hcount⟩ := hrun m (le_refl m)
    rw [NodeHealth.run_append, NodeHealth.step_success_healthy, hhealthy, hcount, Bool.false_or,
      decide_eq_true_eq, saturatingSucc]
    omega

/-- After a demotion, whatever follows, the node returns only behind enough consecutive
successes, exactly if the demotion came from a probe, in front of any counted success,
or one success is enough. -/
theorem demotion_proves_iff (hbefore : n.healthy = true)
    (hdemoted : (n.step cfg d).healthy = false) :
    (∀ mid r, Returns cfg n d mid r → max 1 cfg.successThreshold ≤ provenBy (mid ++ [r])) ↔
      d.isProbe = true ∨ n.successCount = 0 ∨ cfg.successThreshold ≤ 1 := by
  have hcount := successCount_demoted hbefore hdemoted
  constructor
  · intro h
    by_contra hnot
    simp only [not_or, not_le, Bool.not_eq_true] at hnot
    obtain ⟨hprobe, hsome, hthreshold⟩ := hnot
    have hproven := h _ _ (returns_after_missing hbefore hdemoted hthreshold)
    rw [provenBy_success, provenBy_replicate, hcount, hprobe] at hproven
    simp only [Bool.false_eq_true, if_false] at hproven
    omega
  · intro h mid r hreturns
    refine provenBy_of_returns hreturns ?_
    rw [hcount]
    rcases h with hprobe | hzero | hone
    · exact .inl (if_pos hprobe)
    · exact .inl (by rw [hzero, ite_self])
    · exact .inr hone

def threeAndThree : HealthConfig := ⟨3, 3, by decide⟩

def seasoned : NodeHealth := ⟨true, 100, 0, none⟩

/-- The third failed probe of a node demotes it; it returns after three successes. -/
theorem demotion_proves_probe :
    Returns threeAndThree ⟨true, 0, 2, none⟩ (.probe (some "timeout"))
        [.probe none, .probe none] (.probe none) ∧
      max 1 threeAndThree.successThreshold ≤ provenBy [.probe none, .probe none, .probe none] := by
  have hreturns : Returns threeAndThree ⟨true, 0, 2, none⟩ (.probe (some "timeout"))
      [.probe none, .probe none] (.probe none) := by
    refine ⟨by decide, by decide, fun k => ?_, by decide⟩
    match k with
    | 0 | 1 => decide
    | k + 2 => rw [List.take_of_length_le (by simp)]; decide
  exact ⟨hreturns, (demotion_proves_iff (by decide) (by decide)).mpr (.inl rfl) _ _ hreturns⟩

/-- An in-band failure demotes a node that has answered probes before: one success is
enough to bring it back. -/
theorem not_demotion_proves :
    ¬ ∀ mid r, Returns threeAndThree seasoned (.inBand true "connection reset") mid r →
      max 1 threeAndThree.successThreshold ≤ provenBy (mid ++ [r]) := by
  intro h
  have hreturns : Returns threeAndThree seasoned (.inBand true "connection reset") []
      (.probe none) :=
    ⟨by decide, by decide, fun k => by rw [List.take_nil]; decide, by decide⟩
  have hproven := h _ _ hreturns
  revert hproven
  decide

end Demotion

end HeliosProxy.Health
